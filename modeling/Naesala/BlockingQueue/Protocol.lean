import Naesala.BlockingQueue.Threads
import Naesala.Library.Scripted

/-!
# What a bounded blocking queue promises

`Protocol` is what a bounded blocking queue promises to its callers, however its calls wait. Each
call does its push or its pop once; its steps are counted; and when no step is possible, a call that
has not done its push or pop finds no free place, or no item.

**Theorem (`Protocol.ends`).** Let each thread make a given list of calls, all of one side: it is a
producer or a consumer. Then every run is at most `cost + 1` times as long as there are calls. A run
that cannot go on has made all its calls if and only if there are at least as many `put`s as
`take`s, and the rest fits into the buffer.
-/

namespace Naesala

namespace BlockingQueue

variable {δ σ α π τ : Type} {B : CircularBuffer δ}

/-- How many pushes or pops there have been. -/
def Contents.performed (s : Contents B) : Side → ℕ
  | .put => s.pushed.length
  | .take => s.popped.length

@[simp] theorem Contents.performed_construct (B : CircularBuffer δ) (maxSize : ℕ) (d : Side) :
    (Contents.construct B maxSize).performed d = 0 := by
  cases d <;> rfl

theorem Contents.Fifo.performed {s : Contents B} (h : s.Fifo) :
    s.performed .put = s.performed .take + s.items.length := by
  have hlength := congrArg List.length h
  rwa [List.length_append] at hlength

theorem Contents.performed_perform {s s' : Contents B} {c : Call δ} {done : Done δ}
    (hr : s.ready c.side = true) (h : s.perform c = some (s', done)) (d : Side) :
    s'.performed d = s.performed d + (decide (c.side = d)).toNat := by
  obtain ⟨-, ⟨t, rfl, -, -, hpu, hpo⟩ | ⟨front, rfl, -, -, hpu, hpo⟩⟩ := perform_cases hr h
  · cases d <;> simp [Contents.performed, hpu, hpo, Call.side]
  · cases d <;> simp [Contents.performed, hpu, hpo, Call.side]

/-- A call that is ready does its push or pop. -/
theorem Contents.exists_perform {s : Contents B} {c : Call δ} (hr : s.ready c.side = true) :
    ∃ r, s.perform c = some r := by
  cases c with
  | put t => exact ⟨_, rfl⟩
  | take =>
    have hne : B.items s.queue ≠ [] := by
      refine B.empty_eq_false_iff.1 ?_
      simpa [Contents.ready, Call.side] using hr
    have hfront : B.front s.queue = some ((B.items s.queue).head hne) := by
      rw [B.front_eq, List.head?_eq_some_head hne]
    exact ⟨_, by rw [Contents.perform, hfront]; rfl⟩

variable [DecidableEq τ]

/-- What a step of thread `t` to `pc` does. The place of a call says by `asks` on which side it is
until it has done its push or pop, and by `rank` how many steps it has left. -/
structure Moved [Place π] (asks : π → Option Side) (rank : π → ℕ) (s : Threads B π τ) (t : τ)
    (s' : Threads B π τ) (pc : π) : Prop where
  pc_eq : s'.pc = Function.update s.pc t pc
  rank_lt : rank pc < rank (s.pc t)
  attended : Attended Place.inside s.holder s.pc → Attended Place.inside s'.holder s'.pc
  served : asks pc = asks (s.pc t) ∧ s'.contents = s.contents ∨
    ∃ d, asks (s.pc t) = some d ∧ asks pc = none ∧
      ∀ e, s'.contents.performed e = s.contents.performed e + (decide (d = e)).toNat

namespace Moved

variable [Place π] {asks : π → Option Side} {rank : π → ℕ} {s : Threads B π τ} {t : τ} {pc : π}

/-- Only the place changes. -/
theorem goto (hrank : rank pc < rank (s.pc t))
    (hin : Place.inside (s.pc t) = true → Place.inside pc = true) (hasks : asks pc = asks (s.pc t)) :
    Moved asks rank s t (s.goto t pc) pc :=
  ⟨rfl, hrank, fun hatt => hatt.move hin, .inl ⟨hasks, rfl⟩⟩

theorem lock (hrank : rank pc < rank (s.pc t)) (hin : Place.inside pc = true)
    (hasks : asks pc = asks (s.pc t)) :
    Moved asks rank s t ({ s with holder := some t }.goto t pc) pc :=
  ⟨rfl, hrank, fun _ => Attended.lock t hin, .inl ⟨hasks, rfl⟩⟩

theorem unlock (hrank : rank pc < rank (s.pc t)) (hasks : asks pc = asks (s.pc t)) :
    Moved asks rank s t ({ s with holder := none }.goto t pc) pc :=
  ⟨rfl, hrank, fun _ => Attended.free, .inl ⟨hasks, rfl⟩⟩

theorem perform {c : Call δ} {contents : Contents B} {done : Done δ}
    (hready : s.contents.ready c.side = true) (hp : s.contents.perform c = some (contents, done))
    (hrank : rank pc < rank (s.pc t)) (hin : Place.inside pc = true)
    (hask : asks (s.pc t) = some c.side) (hnone : asks pc = none) :
    Moved asks rank s t ({ s with contents := contents }.goto t pc) pc :=
  ⟨rfl, hrank, fun hatt => hatt.move fun _ => hin,
    .inr ⟨c.side, hask, hnone, Contents.performed_perform hready hp⟩⟩

end Moved

theorem comp_update_of_eq {asks : π → Option Side} {f : τ → π} {t : τ} {pc : π}
    (h : asks pc = asks (f t)) : asks ∘ Function.update f t pc = asks ∘ f := by
  rw [Function.comp_update, h]
  exact Function.update_eq_self t (asks ∘ f)

/-- What a bounded blocking queue promises. `asks s t` is the side of the call of thread `t` that
has not done its push or pop yet. -/
structure Protocol (B : CircularBuffer δ) (M : Machine σ α) (invoke : τ → Call δ → α)
    (allowed : α → Bool) (maxSize : ℕ) where
  Inv : σ → Prop
  contents : σ → Contents B
  asks : σ → τ → Option Side
  /-- A bound on the steps until all calls have ended or wait. -/
  rank : σ → ℕ
  cost : ℕ
  inv_init : Inv M.init
  contents_init : contents M.init = Contents.construct B maxSize
  asks_init (t : τ) : asks M.init t = none
  rank_init : rank M.init = 0
  fifo {s : σ} : Inv s → (contents s).Fifo
  length_le {s : σ} : Inv s → (contents s).items.length ≤ maxSize
  call {s s' : σ} {t : τ} {c : Call δ} : Inv s → M.step s (invoke t c) = some s' →
    Inv s' ∧ rank s' ≤ rank s + cost ∧ contents s' = contents s ∧ asks s t = none ∧
      asks s' = Function.update (asks s) t (some c.side)
  other {s s' : σ} {a : α} : Inv s → allowed a = true → M.step s a = some s' →
    Inv s' ∧ rank s' < rank s ∧
      (asks s' = asks s ∧ contents s' = contents s ∨
        ∃ t d, asks s t = some d ∧ asks s' = Function.update (asks s) t none ∧
          ∀ e, (contents s').performed e = (contents s).performed e + (decide (d = e)).toNat)
  halted {s : σ} : Inv s → (∀ a, allowed a = true → M.step s a = none) → ∀ t,
    (asks s t = none → ∀ c, M.step s (invoke t c) ≠ none) ∧
      ∀ d, asks s t = some d → (contents s).available maxSize d = 0

variable [Fintype τ]

/-- There is one step less to do, and the call asks as before or has done its push or pop. -/
theorem Moved.progress [Place π] {asks : π → Option Side} {rank : π → ℕ} {s s' : Threads B π τ}
    {t : τ} {pc : π} (h : Moved asks rank s t s' pc) :
    ∑ u, rank (s'.pc u) < ∑ u, rank (s.pc u) ∧
      (asks ∘ s'.pc = asks ∘ s.pc ∧ s'.contents = s.contents ∨
        ∃ t d, asks (s.pc t) = some d ∧ asks ∘ s'.pc = Function.update (asks ∘ s.pc) t none ∧
          ∀ e, s'.contents.performed e = s.contents.performed e + (decide (d = e)).toNat) := by
  have hless := h.rank_lt
  have hrank := sum_update_add rank (f := s.pc) (Finset.mem_univ t) pc
  rw [h.pc_eq]
  refine ⟨by omega, ?_⟩
  obtain ⟨hasks, hcontents⟩ | ⟨d, hask, hnone, hperformed⟩ := h.served
  · exact .inl ⟨comp_update_of_eq hasks, hcontents⟩
  · exact .inr ⟨t, d, hask, by rw [Function.comp_update, hnone], hperformed⟩

/-- How many calls of a side the scripts have. -/
def calls (script : τ → List (Call δ)) (d : Side) : ℕ :=
  Machine.Scripted.left (fun c => (decide (c.side = d)).toNat) script

omit [DecidableEq τ] in
/-- All calls. -/
theorem calls_add (script : τ → List (Call δ)) :
    Machine.Scripted.left (fun _ => 1) script = calls script .put + calls script .take := by
  rw [calls, calls, Machine.Scripted.left, Machine.Scripted.left, Machine.Scripted.left,
    ← Finset.sum_add_distrib]
  refine Finset.sum_congr rfl fun t _ => ?_
  rw [← List.sum_map_add]
  refine congrArg List.sum (List.map_congr_left fun c _ => ?_)
  cases c <;> rfl

/-- How many calls of a side have begun, and not done their push or pop. -/
def asking (asks : τ → Option Side) (d : Side) : ℕ := population (fun o => decide (o = some d)) asks

theorem asking_update (asks : τ → Option Side) (t : τ) (o : Option Side) (d : Side) :
    asking (Function.update asks t o) d + (decide (asks t = some d)).toNat =
      asking asks d + (decide (o = some d)).toNat :=
  population_update (p := fun o => decide (o = some d)) (f := asks) t o

namespace Protocol

variable {M : Machine σ α} {invoke : τ → Call δ → α} {allowed : α → Bool} {maxSize : ℕ}
  {script : τ → List (Call δ)} {s : Machine.Scripted σ τ (Call δ)} {role : τ → Side}
  (P : Protocol B M invoke allowed maxSize)

/-- The invariant of the scripts: each call is to be made, or asks, or has done its push or pop; and
each thread is on one side only. -/
structure Accounted (script : τ → List (Call δ)) (role : τ → Side)
    (s : Machine.Scripted σ τ (Call δ)) : Prop where
  inv : P.Inv s.state
  account : ∀ d, calls s.script d + asking (P.asks s.state) d + (P.contents s.state).performed d =
    calls script d
  scripts : ∀ t, ∀ c ∈ s.script t, c.side = role t
  sides : ∀ t d, P.asks s.state t = some d → d = role t

theorem Accounted.init (hrole : ∀ t, ∀ c ∈ script t, c.side = role t) :
    P.Accounted script role ⟨M.init, script⟩ where
  inv := P.inv_init
  account d := by
    have hnone : asking (P.asks M.init) d = 0 :=
      population_eq_zero.2 fun t => by rw [P.asks_init t]; rfl
    show calls script d + asking (P.asks M.init) d + (P.contents M.init).performed d = _
    rw [hnone, P.contents_init, Contents.performed_construct, Nat.add_zero]
  scripts := hrole
  sides t d h := by
    rw [P.asks_init t] at h
    cases h

variable {P}

theorem Accounted.call {t : τ} {c : Call δ} {rest : List (Call δ)} {u : σ}
    (h : P.Accounted script role s) (hscript : s.script t = c :: rest)
    (hst : M.step s.state (invoke t c) = some u) :
    P.Accounted script role ⟨u, Function.update s.script t rest⟩ := by
  obtain ⟨hinv, -, hcontents, hidle, hasks⟩ := P.call h.inv hst
  have hside : c.side = role t := h.scripts t c (by rw [hscript]; exact List.mem_cons_self)
  refine ⟨hinv, ?_, ?_, ?_⟩
  · intro d
    have hbefore := h.account d
    have hleft := Machine.Scripted.left_update (fun c => (decide (c.side = d)).toNat) hscript
    have hasking := asking_update (P.asks s.state) t (some c.side) d
    simp only [hidle, Option.some.injEq, reduceCtorEq, decide_false, Bool.toNat_false] at hasking
    show calls (Function.update s.script t rest) d + asking (P.asks u) d +
      (P.contents u).performed d = _
    rw [hasks, hcontents]
    rw [calls] at hbefore ⊢
    omega
  · intro v b hb
    show b.side = role v
    by_cases hv : v = t
    · subst hv
      refine h.scripts v b ?_
      rw [hscript]
      exact List.mem_cons_of_mem _ (by simpa using hb)
    · refine h.scripts v b ?_
      simpa [hv] using hb
  · intro v d hd
    have hd' : P.asks u v = some d := hd
    rw [hasks] at hd'
    by_cases hv : v = t
    · subst hv
      rw [Function.update_self] at hd'
      rw [← Option.some.inj hd', hside]
    · rw [Function.update_of_ne hv] at hd'
      exact h.sides v d hd'

theorem Accounted.other {a : α} {u : σ} (h : P.Accounted script role s) (ha : allowed a = true)
    (hst : M.step s.state a = some u) : P.Accounted script role { s with state := u } := by
  obtain ⟨hinv, -, hcase⟩ := P.other h.inv ha hst
  obtain ⟨hasks, hcontents⟩ | ⟨t, e, hask, hasks, hperformed⟩ := hcase
  · refine ⟨hinv, ?_, h.scripts, ?_⟩
    · intro d
      show calls s.script d + asking (P.asks u) d + (P.contents u).performed d = _
      rw [hasks, hcontents]
      exact h.account d
    · intro v d hd
      exact h.sides v d (hasks ▸ hd)
  · refine ⟨hinv, ?_, h.scripts, ?_⟩
    · intro d
      have hbefore := h.account d
      have hasking := asking_update (P.asks s.state) t none d
      simp only [hask, Option.some.injEq, reduceCtorEq, decide_false, Bool.toNat_false] at hasking
      show calls s.script d + asking (P.asks u) d + (P.contents u).performed d = _
      rw [hasks, hperformed d]
      omega
    · intro v d hd
      have hd' : P.asks u v = some d := hd
      rw [hasks] at hd'
      by_cases hv : v = t
      · subst hv
        rw [Function.update_self] at hd'
        cases hd'
      · rw [Function.update_of_ne hv] at hd'
        exact h.sides v d hd'

/-- If a run cannot go on, and calls of a side are left, then one of them asks in vain. -/
theorem Accounted.available_eq_zero (h : P.Accounted script role s)
    (hhalt : (M.scripted invoke allowed script).Halted s) {d : Side}
    (hpos : 0 < calls s.script d + asking (P.asks s.state) d) :
    (P.contents s.state).available maxSize d = 0 := by
  have hstop := P.halted h.inv fun a ha => Machine.Scripted.other_of_halted hhalt ha
  obtain ⟨t, ht⟩ : ∃ t, P.asks s.state t = some d := by
    rcases Nat.eq_zero_or_pos (asking (P.asks s.state) d) with hnone | hsome
    · rw [hnone, Nat.add_zero] at hpos
      obtain ⟨t, c, hc, hcount⟩ := Machine.Scripted.exists_of_left_pos hpos
      have hside : c.side = d := by
        by_contra hne
        rw [decide_eq_false hne] at hcount
        cases hcount
      have hrole : role t = d := (h.scripts t c hc).symm.trans hside
      obtain ⟨b, rest, hscript⟩ := List.exists_cons_of_ne_nil (List.ne_nil_of_mem hc)
      cases hask : P.asks s.state t with
      | none => exact absurd (Machine.Scripted.call_of_halted hhalt hscript) ((hstop t).1 hask b)
      | some e => exact ⟨t, by rw [hask, h.sides t e hask, hrole]⟩
    · obtain ⟨t, ht⟩ := population_pos.1 hsome
      exact ⟨t, of_decide_eq_true ht⟩
  exact (hstop t).2 d ht

/-- All calls have been made, and have done their push or pop. -/
def Finished (P : Protocol B M invoke allowed maxSize) (s : Machine.Scripted σ τ (Call δ)) : Prop :=
  ∀ t, s.script t = [] ∧ P.asks s.state t = none

omit [Fintype τ] in
/-- The calls have returned, if those that do not ask are over. -/
theorem finished_iff_returned [Place π] {pc : τ → π}
    (hpc : ∀ t, P.asks s.state t = none ↔ pc t = Place.idle) :
    P.Finished s ↔ Returned s.script pc :=
  forall_congr' fun t => and_congr_right fun _ => hpc t

theorem finished_iff :
    P.Finished s ↔ ∀ d, calls s.script d = 0 ∧ asking (P.asks s.state) d = 0 := by
  constructor
  · intro h d
    refine ⟨Machine.Scripted.left_eq_zero _ fun t => (h t).1, population_eq_zero.2 fun t => ?_⟩
    rw [(h t).2]
    rfl
  · intro h t
    constructor
    · by_contra hne
      obtain ⟨c, rest, hscript⟩ := List.exists_cons_of_ne_nil hne
      have hless := Machine.Scripted.left_update
        (fun b : Call δ => (decide (b.side = c.side)).toNat) hscript
      have hnone := (h c.side).1
      rw [calls] at hnone
      simp only [decide_true, Bool.toNat_true] at hless
      omega
    · cases hask : P.asks s.state t with
      | none => rfl
      | some d =>
        have hnone := population_eq_zero.1 (h d).2 t
        simp [hask] at hnone

omit [Fintype τ] in
theorem inv_of_run (P : Protocol B M invoke allowed maxSize)
    {as : List (Machine.ScriptedAction α τ)}
    (hrun : as.foldlM (M.scripted invoke allowed script).step ⟨M.init, script⟩ = some s) :
    P.Inv s.state :=
  Machine.Scripted.invariant (I := fun s => P.Inv s.state) P.inv_init
    (fun _ _ _ _ _ hI _ hst => (P.call hI hst).1)
    (fun _ _ _ hI ha hst => (P.other hI ha hst).1) hrun

/-- **Producers and consumers.** Every run ends; and it ends with all calls made if and only if the
`put`s are enough for the `take`s, and not too many for the buffer. -/
theorem ends (P : Protocol B M invoke allowed maxSize) (hpos : 0 < maxSize)
    (hrole : ∀ t, ∀ c ∈ script t, c.side = role t) {as : List (Machine.ScriptedAction α τ)}
    (hrun : as.foldlM (M.scripted invoke allowed script).step ⟨M.init, script⟩ = some s) :
    as.length ≤ (P.cost + 1) * (calls script .put + calls script .take) ∧
      ((M.scripted invoke allowed script).Halted s → (P.Finished s ↔
        calls script .take ≤ calls script .put ∧
          calls script .put ≤ calls script .take + maxSize)) := by
  constructor
  · have hlength := Machine.Scripted.length_le (J := P.Inv) (Φ := P.rank) (k := P.cost)
      (fun s t c s' hI hst => ⟨(P.call hI hst).1, (P.call hI hst).2.1⟩)
      (fun s a s' hI ha hst => ⟨(P.other hI ha hst).1, (P.other hI ha hst).2.1⟩) hrun P.inv_init
    rwa [P.rank_init, Nat.zero_add, calls_add] at hlength
  · intro hhalt
    have h : P.Accounted script role s := Machine.Scripted.invariant (Accounted.init P hrole)
      (fun s t c rest u hI hscript hst => hI.call hscript hst)
      (fun s a u hI ha hst => hI.other ha hst) hrun
    have hput := h.account .put
    have htake := h.account .take
    have hfifo := (P.fifo h.inv).performed
    have hle := P.length_le h.inv
    have hfull := h.available_eq_zero hhalt (d := .put)
    have hempty := h.available_eq_zero hhalt (d := .take)
    simp only [Contents.available] at hfull hempty
    rw [finished_iff]
    constructor
    · intro hdone
      have hputs := hdone .put
      have htakes := hdone .take
      omega
    · rintro ⟨henough, hfits⟩ d
      cases d <;> omega

end Protocol

/-- A producer of one item and a consumer. -/
def onePair : Bool → List (Call ℕ)
  | true => [.put 7]
  | false => [.take]

theorem side_onePair (t : Bool) (c : Call ℕ) (hc : c ∈ onePair t) :
    c.side = if t = true then .put else .take := by
  cases t with
  | true => rw [List.mem_singleton.1 hc]; rfl
  | false => rw [List.mem_singleton.1 hc]; rfl

end BlockingQueue

end Naesala
