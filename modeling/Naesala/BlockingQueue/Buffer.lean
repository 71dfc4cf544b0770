import Mathlib.Data.List.Basic

/-!
# What the blocking queues do to `_queue`

The four bounded blocking queues keep their items in a `boost::circular_buffer<Task>` and differ
in how a call waits for its turn. The buffer is a parameter here: `CircularBuffer` is the part of
its interface that the queues call, with what its documentation says of each operation, in terms
of the elements from the oldest to the newest. `CircularBuffer.ofList` is one such buffer.

`put` and `take` mirror each other: each waits until its `Side` has something available (a free
place, or an item), uses it, and so makes one available to the other side.
-/

namespace Naesala

/-- `boost::circular_buffer<Task>`; `front` and `popFront` of an empty buffer are undefined. -/
structure CircularBuffer (δ : Type) where
  Buffer : Type
  make : ℕ → Buffer
  full : Buffer → Bool
  empty : Buffer → Bool
  front : Buffer → Option δ
  pushBack : Buffer → δ → Buffer
  popFront : Buffer → Buffer
  capacity : Buffer → ℕ
  items : Buffer → List δ
  items_make (n : ℕ) : items (make n) = []
  capacity_make (n : ℕ) : capacity (make n) = n
  full_iff (b : Buffer) : full b ↔ (items b).length = capacity b
  empty_iff (b : Buffer) : empty b ↔ items b = []
  length_items_le (b : Buffer) : (items b).length ≤ capacity b
  front_eq (b : Buffer) : front b = (items b).head?
  items_pushBack (b : Buffer) (x : δ) : full b = false → items (pushBack b x) = items b ++ [x]
  /-- A full buffer overwrites its oldest element; one of capacity 0 stays empty. -/
  items_pushBack_full (b : Buffer) (x : δ) :
    full b = true → items (pushBack b x) = (items b ++ [x]).tail
  capacity_pushBack (b : Buffer) (x : δ) : capacity (pushBack b x) = capacity b
  items_popFront (b : Buffer) : empty b = false → items (popFront b) = (items b).tail
  capacity_popFront (b : Buffer) : empty b = false → capacity (popFront b) = capacity b

namespace CircularBuffer

variable {δ : Type}

/-- A buffer that is its elements, and how many it can hold. -/
def ofList (δ : Type) : CircularBuffer δ where
  Buffer := { b : ℕ × List δ // b.2.length ≤ b.1 }
  make n := ⟨(n, []), Nat.zero_le n⟩
  full b := b.1.2.length == b.1.1
  empty b := b.1.2.isEmpty
  front b := b.1.2.head?
  pushBack b x :=
    if h : b.1.2.length < b.1.1 then ⟨(b.1.1, b.1.2 ++ [x]), by
      rw [List.length_append, List.length_singleton]; exact h⟩
    else ⟨(b.1.1, (b.1.2 ++ [x]).tail), by simpa using b.2⟩
  popFront b := ⟨(b.1.1, b.1.2.tail), by simpa using Nat.le_succ_of_le b.2⟩
  capacity b := b.1.1
  items b := b.1.2
  items_make _ := rfl
  capacity_make _ := rfl
  full_iff b := by simp
  empty_iff b := by simp
  length_items_le b := b.2
  front_eq _ := rfl
  items_pushBack b x h := by
    have room : b.1.2.length < b.1.1 := by
      have := b.2
      simp only [beq_eq_false_iff_ne] at h
      omega
    simp [room]
  items_pushBack_full b x h := by
    have noRoom : ¬ b.1.2.length < b.1.1 := by
      simp only [beq_iff_eq] at h
      omega
    simp [noRoom]
  capacity_pushBack b x := by split <;> rfl
  items_popFront _ _ := rfl
  capacity_popFront _ _ := rfl

variable (B : CircularBuffer δ) {b : B.Buffer}

theorem full_eq_false_iff : B.full b = false ↔ (B.items b).length < B.capacity b := by
  have hle := B.length_items_le b
  have hfull := B.full_iff b
  cases h : B.full b with
  | false =>
    have : (B.items b).length ≠ B.capacity b := by simpa [h] using hfull
    simp only [true_iff]
    omega
  | true =>
    have : (B.items b).length = B.capacity b := hfull.1 h
    simp [this]

theorem empty_eq_false_iff : B.empty b = false ↔ B.items b ≠ [] := by
  rw [ne_eq, ← B.empty_iff, Bool.not_eq_true]

end CircularBuffer

namespace BlockingQueue

/-! ## Calls -/

/-- Which of the two functions a call is of. -/
inductive Side where
  | put
  | take
  deriving DecidableEq

def Side.other : Side → Side
  | .put => .take
  | .take => .put

@[simp] theorem Side.other_other (d : Side) : d.other.other = d := by cases d <;> rfl

@[simp] theorem Side.other_ne (d : Side) : d.other ≠ d := by cases d <;> decide

@[simp] theorem Side.ne_other (d : Side) : d ≠ d.other := by cases d <;> decide

theorem Side.eq_or_eq_other (d e : Side) : d = e ∨ d = e.other := by
  cases d <;> cases e <;> decide

/-- A call, with its argument. -/
inductive Call (δ : Type) where
  | put (t : δ)
  | take

def Call.side {δ : Type} : Call δ → Side
  | .put _ => .put
  | .take => .take

/-- A call that has done its push or its pop; `take` has yet to return `front`. -/
inductive Done (δ : Type) where
  | put
  | take (front : δ)

def Done.side {δ : Type} : Done δ → Side
  | .put => .put
  | .take _ => .take

/-- `_queue`, with a record of every item pushed to it and popped from it, in order. -/
structure Contents {δ : Type} (B : CircularBuffer δ) where
  queue : B.Buffer
  pushed : List δ
  popped : List δ

namespace Contents

variable {δ : Type} {B : CircularBuffer δ}

def construct (B : CircularBuffer δ) (maxSize : ℕ) : Contents B := ⟨B.make maxSize, [], []⟩

abbrev items (s : Contents B) : List δ := B.items s.queue

/-- `!_queue.full()` or `!_queue.empty()`: the assertion of both functions, and what the
predicate of a condition variable tests. -/
def ready (s : Contents B) : Side → Bool
  | .put => !B.full s.queue
  | .take => !B.empty s.queue

/-- `_queue.push_back(t)`, or `Task front(_queue.front()); _queue.pop_front()`. -/
def perform (s : Contents B) : Call δ → Option (Contents B × Done δ)
  | .put t => some ({ s with queue := B.pushBack s.queue t, pushed := s.pushed ++ [t] }, .put)
  | .take => (B.front s.queue).map fun front =>
    ({ s with queue := B.popFront s.queue, popped := s.popped ++ [front] }, .take front)

/-- The items popped so far, and then those in the buffer, are those pushed, in that order. -/
def Fifo (s : Contents B) : Prop := s.pushed = s.popped ++ s.items

theorem fifo_construct (maxSize : ℕ) : (construct B maxSize).Fifo := by
  simp [Fifo, construct, items, B.items_make]

/-- How many free places (up to `bound` items) or items there are. -/
def available (bound : ℕ) (s : Contents B) : Side → ℕ
  | .put => bound - s.items.length
  | .take => s.items.length

theorem ready_of_available {bound : ℕ} {s : Contents B} (hb : bound ≤ B.capacity s.queue)
    {d : Side} (h : 0 < s.available bound d) : s.ready d = true := by
  cases d with
  | put =>
    have room : (B.items s.queue).length < B.capacity s.queue := by
      simp only [available, items] at h
      omega
    simp [ready, B.full_eq_false_iff.2 room]
  | take =>
    have : s.items ≠ [] := List.ne_nil_of_length_pos h
    simp [ready, B.empty_eq_false_iff.2 this]

theorem available_of_ready {s : Contents B} {d : Side} (h : s.ready d = true) :
    0 < s.available (B.capacity s.queue) d := by
  cases d with
  | put =>
    have room : s.items.length < B.capacity s.queue :=
      B.full_eq_false_iff.1 (by simpa [ready] using h)
    simp only [available]
    omega
  | take => exact List.length_pos_of_ne_nil (B.empty_eq_false_iff.1 (by simpa [ready] using h))

/-- **What a call that is ready does.** -/
theorem perform_cases {s s' : Contents B} {c : Call δ} {done : Done δ}
    (hr : s.ready c.side = true) (h : s.perform c = some (s', done)) :
    B.capacity s'.queue = B.capacity s.queue ∧
      ((∃ t, c = .put t ∧ done = .put ∧ s'.items = s.items ++ [t] ∧
          s'.pushed = s.pushed ++ [t] ∧ s'.popped = s.popped) ∨
        ∃ front, c = .take ∧ done = .take front ∧ s.items = front :: s'.items ∧
          s'.pushed = s.pushed ∧ s'.popped = s.popped ++ [front]) := by
  cases c with
  | put t =>
    have notFull : B.full s.queue = false := by simpa [ready, Call.side] using hr
    simp only [perform, Option.some.injEq, Prod.mk.injEq] at h
    obtain ⟨rfl, rfl⟩ := h
    exact ⟨B.capacity_pushBack _ _, .inl ⟨t, rfl, rfl, B.items_pushBack _ t notFull, rfl, rfl⟩⟩
  | take =>
    have notEmpty : B.empty s.queue = false := by simpa [ready, Call.side] using hr
    simp only [perform, Option.map_eq_some_iff, Prod.mk.injEq] at h
    obtain ⟨front, hf, rfl, rfl⟩ := h
    have split : B.items s.queue = front :: B.items (B.popFront s.queue) := by
      rw [B.items_popFront _ notEmpty]
      exact List.eq_cons_of_mem_head? (B.front_eq _ ▸ hf)
    exact ⟨B.capacity_popFront _ notEmpty, .inr ⟨front, rfl, rfl, split, rfl, rfl⟩⟩

section

variable {bound : ℕ} {s s' : Contents B} {c : Call δ} {done : Done δ}

theorem perform_side (hr : s.ready c.side = true) (h : s.perform c = some (s', done)) :
    done.side = c.side := by
  obtain ⟨-, ⟨t, rfl, rfl, -⟩ | ⟨front, rfl, rfl, -⟩⟩ := perform_cases hr h <;> rfl

theorem perform_fifo (hr : s.ready c.side = true) (h : s.perform c = some (s', done))
    (hs : s.Fifo) : s'.Fifo := by
  obtain ⟨-, ⟨t, -, -, hi, hpu, hpo⟩ | ⟨front, -, -, hi, hpu, hpo⟩⟩ := perform_cases hr h
  · rw [Fifo, hpu, hpo, hi, hs, List.append_assoc]
  · rw [Fifo, hpu, hpo, hs, hi, List.append_assoc, List.singleton_append]

theorem length_perform (ha : 0 < s.available bound c.side) (hle : s.items.length ≤ bound)
    (hr : s.ready c.side = true) (h : s.perform c = some (s', done)) :
    s'.items.length ≤ bound := by
  obtain ⟨-, ⟨t, rfl, -, hi, -⟩ | ⟨front, rfl, -, hi, -⟩⟩ := perform_cases hr h
  · simp only [available, Call.side] at ha
    rw [hi, List.length_append, List.length_singleton]
    omega
  · rw [hi, List.length_cons] at hle
    omega

/-- A call uses one of what is available to its side, and makes one available to the other. -/
theorem available_perform (ha : 0 < s.available bound c.side) (hle : s.items.length ≤ bound)
    (hr : s.ready c.side = true) (h : s.perform c = some (s', done)) :
    s'.available bound c.side + 1 = s.available bound c.side ∧
      s'.available bound c.side.other = s.available bound c.side.other + 1 := by
  obtain ⟨-, ⟨t, rfl, -, hi, -⟩ | ⟨front, rfl, -, hi, -⟩⟩ := perform_cases hr h
  · simp only [available, Call.side, Side.other] at ha ⊢
    rw [hi, List.length_append, List.length_singleton]
    omega
  · simp only [available, Call.side, Side.other]
    rw [hi, List.length_cons] at hle ⊢
    omega

end

end Contents

end BlockingQueue

end Naesala
