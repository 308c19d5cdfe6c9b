import LumenAlloc.ProcBin

/-!
# The shared count of a `ProcBin` block, over every interleaving

Handles to one block come from `from_slice` (the first), `Clone::clone`,
`CloneToProcess::clone_to_process` and `CloneToProcess::clone_to_heap`, and go through
`Drop::drop`, which calls `drop_slow` when its `fetch_sub` saw a count of one. Each step on the
`AtomicUsize` is one read-modify-write, and any thread may take the next one, so the model is the
set of states reachable by any sequence of enabled steps. A new handle needs memory of its own:
the handles and the block they share occupy distinct bytes, so fewer than `usize::MAX` handles are
ever live at once.

`drop` decrements the count and `drop_slow` decrements it again. When every handle is counted,
the drop that takes the count from one to zero therefore takes it on to `usize::MAX`, and its
`fetch_sub` in `drop_slow` never returns one: the block is never freed. A lone `clone_to_heap`
makes a handle the count does not hold, and the count can then be back at one when `drop_slow`
runs.
-/

namespace LumenAlloc.ProcBin

/-- One step on the count of a block. -/
inductive Action where
  /-- `Clone::clone`: `fetch_add`, and a new handle. -/
  | clone
  /-- `clone_to_process`: `clone_to_heap` writes the handle, then `fetch_add`. -/
  | cloneToProcess
  /-- `clone_to_heap` called on its own: a handle written, the count untouched. -/
  | cloneToHeap
  /-- The `fetch_sub` of `Drop::drop`. -/
  | drop
  /-- The `fetch_sub` of `drop_slow`, and the free when it returned one. -/
  | dropSlow
  deriving DecidableEq, Repr

/-- The count of one block, its live handles, the drops between their `fetch_sub` and the one in
`drop_slow`, the drops whose `fetch_sub` returned one, and the layouts passed to
`sys_alloc::free`. -/
structure State where
  refc : Nat
  live : Nat
  slow : Nat
  sawOne : Nat
  freed : List Layout
  deriving DecidableEq, Repr

def State.init : State := ⟨1, 1, 0, 0, []⟩

def step (p : Platform) (s : State) : Action → Option State
  | .clone | .cloneToProcess =>
    if 0 < s.live ∧ s.live < p.target.usizeMax then
      some { s with refc := p.target.wrappingAdd s.refc 1, live := s.live + 1 }
    else none
  | .cloneToHeap =>
    if 0 < s.live ∧ s.live < p.target.usizeMax then some { s with live := s.live + 1 } else none
  | .drop =>
    if 0 < s.live then
      some { s with
        refc := p.target.wrappingSub s.refc 1
        live := s.live - 1
        slow := if s.refc = 1 then s.slow + 1 else s.slow
        sawOne := if s.refc = 1 then s.sawOne + 1 else s.sawOne }
    else none
  | .dropSlow =>
    if 0 < s.slow then
      some { s with
        refc := p.target.wrappingSub s.refc 1
        slow := s.slow - 1
        freed := if s.refc = 1 then s.freed ++ [dropSlowLayout p] else s.freed }
    else none

inductive Reachable (p : Platform) (allowed : Action → Prop) : State → Prop
  | init : Reachable p allowed State.init
  | step {s s' : State} {a : Action} :
      Reachable p allowed s → allowed a → step p s a = some s' → Reachable p allowed s'

/-- The steps that count every handle they create: all but a lone `clone_to_heap`. -/
def Counting (a : Action) : Prop := a ≠ .cloneToHeap

def run (p : Platform) (s : State) (actions : List Action) : Option State :=
  actions.foldlM (step p) s

theorem reachable_run {p : Platform} {allowed : Action → Prop} {s s' : State}
    {actions : List Action} (hs : Reachable p allowed s) (ha : ∀ a ∈ actions, allowed a)
    (hrun : run p s actions = some s') : Reachable p allowed s' := by
  induction actions generalizing s with
  | nil => cases hrun; exact hs
  | cons a as ih =>
    simp only [run, List.foldlM_cons, Option.bind_eq_bind, Option.bind_eq_some] at hrun
    obtain ⟨t, ht, hrest⟩ := hrun
    exact ih (hs.step (ha a (by simp)) ht) (fun b hb => ha b (by simp [hb])) hrest

theorem run_append (p : Platform) (s : State) (xs ys : List Action) :
    run p s (xs ++ ys) = (run p s xs).bind (run p · ys) := by
  simp [run, List.foldlM_append]

/-- Where the count of a block stands when every handle was counted: first a count equal to the
number of live handles; after the drop that saw one, a count of zero and one `drop_slow` to come;
after that, a count wrapped to `usize::MAX`. Nothing is ever freed. -/
inductive Phase (p : Platform) : State → Prop
  | live {n : Nat} : 0 < n → n ≤ p.target.usizeMax → Phase p ⟨n, n, 0, 0, []⟩
  | releasing : Phase p ⟨0, 0, 1, 1, []⟩
  | wrapped : Phase p ⟨p.target.usizeMax, 0, 0, 1, []⟩

theorem phase_init (p : Platform) : Phase p State.init :=
  .live Nat.one_pos p.target.one_le_usizeMax

theorem phase_step {p : Platform} {s s' : State} {a : Action} (hs : Phase p s) (ha : Counting a)
    (h : step p s a = some s') : Phase p s' := by
  cases hs with
  | @live n hpos hle =>
    cases a with
    | clone | cloneToProcess =>
      simp only [step, hpos, true_and] at h
      split at h
      · cases h
        rw [p.target.wrappingAdd_one ‹_›]
        exact .live (by omega) (by omega)
      · cases h
    | cloneToHeap => exact absurd rfl ha
    | drop =>
      simp only [step, hpos, if_true, Option.some.injEq] at h
      subst h
      by_cases hn : n = 1
      · subst hn
        simpa [p.target.wrappingSub_one (le_refl 1) hle] using Phase.releasing (p := p)
      · simpa [hn, p.target.wrappingSub_one hpos hle] using Phase.live (p := p) (n := n - 1)
          (by omega) (by omega)
    | dropSlow => simp [step] at h
  | releasing =>
    cases a <;> simp only [step, Nat.lt_irrefl, false_and, if_false, reduceCtorEq] at h
    · simp only [Nat.one_pos, if_true, Option.some.injEq] at h
      subst h
      simpa [p.target.wrappingSub_zero_one] using Phase.wrapped (p := p)
  | wrapped => cases a <;> simp [step] at h

theorem phase_of_reachable {p : Platform} {s : State} (hs : Reachable p Counting s) :
    Phase p s := by
  induction hs with
  | init => exact phase_init p
  | step _ ha hstep ih => exact phase_step ih ha hstep

/-- Whatever the number of clones and the order of the drops, once every handle is dropped and
every drop has returned, exactly one drop saw the count go from one to zero, the count has gone on
to wrap to `usize::MAX`, and the block was never freed. -/
theorem refc_wraps_and_block_never_freed {p : Platform} {s : State}
    (hs : Reachable p Counting s) (hlive : s.live = 0) (hslow : s.slow = 0) :
    s.refc = p.target.usizeMax ∧ s.sawOne = 1 ∧ s.freed = [] := by
  cases phase_of_reachable hs with
  | live hpos _ => simp only at hlive; omega
  | releasing => simp at hslow
  | wrapped => exact ⟨rfl, rfl, rfl⟩

theorem run_clones {p : Platform} {k : Nat} (j : Nat) (hk : 0 < k)
    (h : k + j ≤ p.target.usizeMax) :
    run p ⟨k, k, 0, 0, []⟩ (List.replicate j .clone) = some ⟨k + j, k + j, 0, 0, []⟩ := by
  induction j generalizing k with
  | zero => rfl
  | succ j ih =>
    have hstep : step p ⟨k, k, 0, 0, []⟩ .clone = some ⟨k + 1, k + 1, 0, 0, []⟩ := by
      simp [step, hk, p.target.wrappingAdd_one (show k < p.target.usizeMax by omega),
        show k < p.target.usizeMax by omega]
    have := ih (k := k + 1) (by omega) (by omega)
    simp only [run, List.replicate_succ, List.foldlM_cons, hstep, Option.bind_eq_bind,
      Option.some_bind] at this ⊢
    rw [this, show k + 1 + j = k + (j + 1) by omega]

theorem run_drops {p : Platform} (k : Nat) (hk : 0 < k) (h : k ≤ p.target.usizeMax) :
    run p ⟨k, k, 0, 0, []⟩ (List.replicate k .drop) = some ⟨0, 0, 1, 1, []⟩ := by
  induction k with
  | zero => omega
  | succ k ih =>
    rcases Nat.eq_zero_or_pos k with rfl | hpos
    · simp [run, step, p.target.wrappingSub_one (le_refl 1) h]
    · have hstep : step p ⟨k + 1, k + 1, 0, 0, []⟩ .drop = some ⟨k, k, 0, 0, []⟩ := by
        simp [step, p.target.wrappingSub_one (by omega) h, show k + 1 ≠ 1 by omega]
      have := ih hpos (by omega)
      simp only [run, List.replicate_succ, List.foldlM_cons, hstep, Option.bind_eq_bind,
      Option.some_bind] at this ⊢
      exact this

/-- When every handle is counted, the states the count machine reaches are exactly its three
phases: any number of live handles up to `usize::MAX` with a count equal to it, the moment after
the last drop saw one, and the wrapped count once its `drop_slow` has run. -/
theorem reachable_counting_iff (p : Platform) (s : State) :
    Reachable p Counting s ↔ Phase p s := by
  refine ⟨phase_of_reachable, fun hs => ?_⟩
  have hdrop : run p State.init [.drop] = some ⟨0, 0, 1, 1, []⟩ := by
    simp [run, step, State.init, p.target.wrappingSub_one (le_refl 1) p.target.one_le_usizeMax]
  cases hs with
  | @live n hpos hle =>
    have hrun := run_clones (p := p) (k := 1) (n - 1) Nat.one_pos (by omega)
    rw [show 1 + (n - 1) = n by omega] at hrun
    exact reachable_run .init (fun a ha => by simp [(List.mem_replicate.1 ha).2, Counting]) hrun
  | releasing => exact reachable_run .init (by simp [Counting]) hdrop
  | wrapped =>
    have hrun :
        run p State.init [.drop, .dropSlow] = some ⟨p.target.usizeMax, 0, 0, 1, []⟩ := by
      rw [show [Action.drop, .dropSlow] = [.drop] ++ [.dropSlow] from rfl, run_append, hdrop]
      simp [run, step, p.target.wrappingSub_zero_one]
    exact reachable_run .init (by simp [Counting]) hrun

/-- `from_slice`, `N` clones, the `N + 1` drops, and the one `drop_slow` the last of them calls,
end on a wrapped count and nothing freed. -/
theorem run_clones_then_drops (p : Platform) (N : Nat) (hN : N < p.target.usizeMax) :
    run p State.init (List.replicate N .clone ++ List.replicate (N + 1) .drop ++ [.dropSlow]) =
      some ⟨p.target.usizeMax, 0, 0, 1, []⟩ := by
  rw [run_append, run_append, State.init, run_clones N Nat.one_pos (by omega)]
  simp only [Option.some_bind, Nat.add_comm 1 N]
  rw [run_drops (N + 1) (by omega) (by omega)]
  simp [run, step, p.target.wrappingSub_zero_one]

theorem run_clones_then_drops_two :
    2 < x86_64.target.usizeMax ∧
      run x86_64 State.init (List.replicate 2 .clone ++ List.replicate 3 .drop ++ [.dropSlow]) =
        some ⟨x86_64.target.usizeMax, 0, 0, 1, []⟩ :=
  ⟨by decide, run_clones_then_drops x86_64 2 (by decide)⟩

theorem refc_wraps_after_one_drop :
    ∃ s, Reachable x86_64 Counting s ∧ s.live = 0 ∧ s.slow = 0 ∧
      s.refc = 2 ^ 64 - 1 ∧ s.sawOne = 1 ∧ s.freed = [] := by
  have hrun : run x86_64 State.init [.drop, .dropSlow] = some ⟨2 ^ 64 - 1, 0, 0, 1, []⟩ := by
    decide
  have hs : Reachable x86_64 Counting _ := reachable_run .init (by simp [Counting]) hrun
  exact ⟨_, hs, rfl, rfl, refc_wraps_and_block_never_freed hs rfl rfl⟩

end LumenAlloc.ProcBin
