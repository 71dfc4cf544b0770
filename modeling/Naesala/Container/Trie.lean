import Mathlib.Data.List.Basic
import Mathlib.Logic.Function.Basic

/-!
# `Trie`

The trie of `container/trie.h`. Its nodes are in a heap, a list of nodes whose indices are the
addresses; `new TrieNode()` adds a node at the end, and `root_` is node `0`. A null pointer is
`none`. The index `c - 'a'` of a letter is undefined for other characters, and so is every
operation on a word that has one.
-/

namespace Naesala

structure TrieNode where
  next : Fin 26 → Option ℕ
  isWord : Bool

structure Trie where
  nodes : List TrieNode

namespace Trie

/-- `new TrieNode()`. -/
def newNode : TrieNode := ⟨fun _ => none, false⟩

/-- A trie whose only node is `root_`. -/
def construct : Trie := ⟨[newNode]⟩

/-- `c - 'a'`, where it is an index of `next`. -/
def slot (c : Char) : Option (Fin 26) :=
  if h : 'a'.toNat ≤ c.toNat ∧ c.toNat - 'a'.toNat < 26 then some ⟨_, h.2⟩ else none

/-- `p->next[c - 'a'] = new TrieNode()`. -/
def grow (t : Trie) (p : ℕ) (n : TrieNode) (i : Fin 26) : Trie :=
  ⟨t.nodes.set p { n with next := Function.update n.next i (some t.nodes.length) } ++ [newNode]⟩

/-- The loop of `Insert` from node `p`: the trie after it, and the last node. -/
def insertLoop (t : Trie) (p : ℕ) : List Char → Option (Trie × ℕ)
  | [] => some (t, p)
  | c :: word => do
    let i ← slot c
    let n ← t.nodes[p]?
    match n.next i with
    | some q => insertLoop t q word
    | none => insertLoop (t.grow p n i) t.nodes.length word

/-- `p->is_word = true`. -/
def mark (t : Trie) (p : ℕ) : Option Trie := do
  let n ← t.nodes[p]?
  some ⟨t.nodes.set p { n with isWord := true }⟩

/-- `Insert`. -/
def insert (t : Trie) (word : List Char) : Option Trie := do
  let (t, p) ← t.insertLoop 0 word
  t.mark p

/-- The loop of `Find` from `p`. -/
def findLoop (t : Trie) : Option ℕ → List Char → Option (Option ℕ)
  | p, [] => some p
  | none, _ :: _ => some none
  | some p, c :: str => do
    let i ← slot c
    let n ← t.nodes[p]?
    findLoop t (n.next i) str

/-- `Find`. -/
def find (t : Trie) (str : List Char) : Option (Option ℕ) := t.findLoop (some 0) str

/-- `Search`. -/
def search (t : Trie) (word : List Char) : Option Bool := do
  match ← t.find word with
  | none => some false
  | some p => do
    let n ← t.nodes[p]?
    some n.isWord

/-- `StartsWith`. -/
def startsWith (t : Trie) (pre : List Char) : Option Bool := do
  let p ← t.find pre
  some p.isSome

/-- `Insert` of each of the words, in order. -/
def insertAll (t : Trie) (words : List (List Char)) : Option Trie := words.foldlM insert t

end Trie

end Naesala
