import Ehttp.Pool.ThreadPool

/-!
# `threadpool.cpp`: the threads that are made and joined

The calls the owner of a pool makes one after another.  A thread is known by
the number of its `pthread_create`; `pthread_join` returns once the thread has
left, so only the handle it is called with matters.

* `createLoop_eq`, `joinLoop_eq`: what the two loops push and join;
* `step_made`: the handles are those of the threads made so far, in order;
* `joins_iff`: the pool joins exactly what it made in the lifetimes whose
  every `destroy_threadpool` finds the pool size equal to the number of threads
  made since the one before it, and no older thread unless that number is 0.
-/

namespace Ehttp

open Lib

/-! ## Calls -/

/-- `pool_state` is `none` for the initial -1; `created`, `joined` and `mark` are
not in the source: how many threads were made, the handles joined in order
(`none` is an index past the end), and `created` at the last
`destroy_threadpool`. -/
structure JoinPool where
  poolSize : Nat := 0
  poolState : Option PoolState := none
  threads : List Nat := []
  created : Nat := 0
  joined : List (Option Nat) := []
  mark : Nat := 0
  deriving DecidableEq, Repr

namespace JoinPool

/-- The loop of `start_threadpool` from index `i` on, `k` rounds left;
`pthread_create` fails at index `failAt`. -/
def createLoop (failAt : Option Nat) : Nat → Nat → JoinPool → Int × JoinPool
  | 0, _, p => (0, p)
  | k + 1, i, p =>
    if failAt = some i then (-1, p)
    else
      createLoop failAt k (i + 1)
        { p with threads := p.threads ++ [p.created], created := p.created + 1 }

def startThreadpool (failAt : Option Nat) (p : JoinPool) : Int × JoinPool :=
  if p.poolSize = 0 then (-1, p)
  else if p.poolState = some .started then (0, p)
  else createLoop failAt p.poolSize 0 { p with poolState := some .started }

def setPoolSize (poolSize : Nat) (p : JoinPool) : JoinPool := { p with poolSize }

/-- The loop of `destroy_threadpool` from index `i` on, `k` rounds left. -/
def joinLoop : Nat → Nat → JoinPool → JoinPool
  | 0, _, p => p
  | k + 1, i, p => joinLoop k (i + 1) { p with joined := p.joined ++ [p.threads[i]?] }

/-- What it returns is the number of tasks left (`ThreadPool.destroyRet`). -/
def destroyThreadpool (p : JoinPool) : JoinPool :=
  { joinLoop p.poolSize 0 { p with poolState := some .stopped } with mark := p.created }

inductive Call
  | setPoolSize (poolSize : Nat)
  | startThreadpool (failAt : Option Nat)
  | destroyThreadpool
  /-- `~ThreadPool` -/
  | destruct
  deriving DecidableEq, Repr

def step (p : JoinPool) : Call → Option JoinPool
  | .setPoolSize poolSize => some (p.setPoolSize poolSize)
  | .startThreadpool failAt => some (p.startThreadpool failAt).2
  | .destroyThreadpool => some p.destroyThreadpool
  | .destruct => some (if p.poolState = some .started then p.destroyThreadpool else p)

/-- The call runs `destroy_threadpool`. -/
def Destroys (p : JoinPool) (c : Call) : Prop :=
  c = .destroyThreadpool ∨ c = .destruct ∧ p.poolState = some .started

/-! ## The loops -/

theorem createLoop_eq (failAt : Option Nat) (k i : Nat) (p : JoinPool) :
    ∃ m ≤ k, (createLoop failAt k i p).2 =
      { p with threads := p.threads ++ List.range' p.created m, created := p.created + m } := by
  induction k generalizing i p with
  | zero => exact ⟨0, Nat.le_refl 0, by simp [createLoop]⟩
  | succ k ih =>
    by_cases hf : failAt = some i
    · exact ⟨0, Nat.zero_le _, by simp [createLoop, hf]⟩
    · obtain ⟨m, hm, heq⟩ := ih (i + 1)
        { p with threads := p.threads ++ [p.created], created := p.created + 1 }
      refine ⟨m + 1, by omega, ?_⟩
      rw [createLoop, if_neg hf, heq]
      simp [List.range'_succ, Nat.add_assoc, Nat.add_comm 1 m]

theorem joinLoop_eq (k i : Nat) (p : JoinPool) :
    joinLoop k i p =
      { p with joined := p.joined ++ (List.range' i k).map fun j => p.threads[j]? } := by
  induction k generalizing i p with
  | zero => simp [joinLoop]
  | succ k ih => simp [joinLoop, ih, List.range'_succ]

/-! ## What the pool knows -/

variable {p p' : JoinPool} {c : Call}

/-- The handles are those of all threads ever made, in order. -/
structure Made (p : JoinPool) : Prop where
  threads : p.threads = List.range p.created
  mark : p.mark ≤ p.created

theorem made_init : Made {} := ⟨rfl, Nat.le_refl 0⟩

theorem startThreadpool_eq (failAt : Option Nat) (p : JoinPool) :
    ∃ state m, (p.startThreadpool failAt).2 = { p with
      poolState := state
      threads := p.threads ++ List.range' p.created m
      created := p.created + m } := by
  unfold startThreadpool
  split
  · exact ⟨p.poolState, 0, by simp⟩
  · split
    · exact ⟨p.poolState, 0, by simp⟩
    · obtain ⟨m, -, h⟩ := createLoop_eq failAt p.poolSize 0 { p with poolState := some .started }
      exact ⟨some .started, m, h⟩

theorem destroyThreadpool_eq (p : JoinPool) :
    p.destroyThreadpool = { p with
      poolState := some .stopped
      joined := p.joined ++ (List.range p.poolSize).map fun j => p.threads[j]?
      mark := p.created } := by
  rw [destroyThreadpool, joinLoop_eq, List.range_eq_range']

/-- What a call does: it joins the first `pool_size` handles, or it makes
threads and joins none. -/
theorem step_cases (h : step p c = some p') :
    (p.Destroys c ∧ p' = p.destroyThreadpool) ∨
    (¬ p.Destroys c ∧ ∃ size state m, p' = { p with
      poolSize := size
      poolState := state
      threads := p.threads ++ List.range' p.created m
      created := p.created + m }) := by
  cases c with
  | setPoolSize size =>
    obtain rfl := Option.some.inj h
    exact Or.inr ⟨by simp [Destroys], size, p.poolState, 0, by simp [setPoolSize]⟩
  | startThreadpool failAt =>
    obtain rfl := Option.some.inj h
    obtain ⟨state, m, heq⟩ := startThreadpool_eq failAt p
    exact Or.inr ⟨by simp [Destroys], p.poolSize, state, m, heq⟩
  | destroyThreadpool =>
    obtain rfl := Option.some.inj h
    exact Or.inl ⟨Or.inl rfl, rfl⟩
  | destruct =>
    obtain rfl := Option.some.inj h
    by_cases hs : p.poolState = some .started
    · exact Or.inl ⟨Or.inr ⟨rfl, hs⟩, by rw [if_pos hs]⟩
    · refine Or.inr ⟨by simp [Destroys, hs], p.poolSize, p.poolState, 0, ?_⟩
      rw [if_neg hs]
      simp

theorem step_made (hp : p.Made) (h : step p c = some p') : p'.Made := by
  rcases step_cases h with ⟨-, rfl⟩ | ⟨-, size, state, m, rfl⟩
  · rw [destroyThreadpool_eq]
    exact ⟨hp.threads, Nat.le_refl _⟩
  · constructor
    · show p.threads ++ List.range' p.created m = List.range (p.created + m)
      rw [hp.threads, List.range_eq_range', List.range_eq_range', ← List.range'_append]
      simp
    · exact Nat.le_trans hp.mark (Nat.le_add_right _ _)

/-! ## Lifetimes -/

/-- No index of `_threads` past the end, no thread joined twice, and behind a
`destroy_threadpool` every thread made since the one before it is joined. -/
structure JoinsMade (p : JoinPool) (c : Call) : Prop where
  indices : ∀ p', step p c = some p' → none ∉ p'.joined
  once : ∀ p', step p c = some p' → p'.joined.Nodup
  all : ∀ p', step p c = some p' → p.Destroys c →
    ∀ t, p.mark ≤ t → t < p.created → some t ∈ p'.joined

/-- A `destroy_threadpool` finds the pool size equal to the number of threads
made since the last one, and no older thread unless that number is 0. -/
def SizeMatches (p : JoinPool) (c : Call) : Prop :=
  p.Destroys c → p.poolSize = p.created - p.mark ∧ (p.poolSize = 0 ∨ p.mark = 0)

/-- What was made before the last `destroy_threadpool` was joined, in order. -/
structure Joined (p : JoinPool) : Prop extends Made p where
  joined : p.joined = (List.range p.mark).map some

theorem joined_init : Joined {} := ⟨made_init, rfl⟩

theorem Joined.clean (hp : p.Joined) : none ∉ p.joined ∧ p.joined.Nodup := by
  rw [hp.joined]
  refine ⟨by simp, ?_⟩
  exact List.nodup_range.map fun _ _ h => Option.some.inj h

/-- A destruction of a pool whose size matches. -/
theorem destroy_joined (hp : p.Joined) (hsize : p.poolSize = p.created - p.mark)
    (hmark : p.poolSize = 0 ∨ p.mark = 0) : p.destroyThreadpool.Joined := by
  have hle := hp.mark
  rw [destroyThreadpool_eq]
  refine ⟨⟨hp.threads, Nat.le_refl _⟩, ?_⟩
  show p.joined ++ (List.range p.poolSize).map (fun j => p.threads[j]?) =
    (List.range p.created).map some
  rw [hp.joined, hp.threads]
  rcases hmark with hmark | hmark
  · have heq : p.created = p.mark := by omega
    simp [hmark, heq]
  · have heq : p.poolSize = p.created := by omega
    rw [hmark, heq, List.range_zero, List.map_nil, List.nil_append]
    apply List.map_congr_left
    intro j hj
    exact List.getElem?_range (List.mem_range.mp hj)

theorem step_joined (hp : p.Joined) (hc : SizeMatches p c) (h : step p c = some p') :
    p'.Joined := by
  have hmade := step_made hp.toMade h
  rcases step_cases h with ⟨hd, rfl⟩ | ⟨-, size, state, m, rfl⟩
  · exact destroy_joined hp (hc hd).1 (hc hd).2
  · exact ⟨hmade, hp.joined⟩

theorem joinsMade_of_sizeMatches (hp : p.Joined) (hc : SizeMatches p c) : JoinsMade p c := by
  constructor
  · intro p' h
    exact (step_joined hp hc h).clean.1
  · intro p' h
    exact (step_joined hp hc h).clean.2
  · intro p' h hd t _ ht
    have hp' := step_joined hp hc h
    rcases step_cases h with ⟨-, rfl⟩ | ⟨hn, -⟩
    · rw [hp'.joined]
      simpa [destroyThreadpool_eq] using ht
    · exact absurd hd hn

theorem sizeMatches_of_joinsMade (hp : p.Joined) (h : JoinsMade p c) : SizeMatches p c := by
  intro hd
  obtain ⟨p', hstep⟩ : ∃ p', step p c = some p' := by cases c <;> exact ⟨_, rfl⟩
  have hle := hp.mark
  have hjoined : p'.joined = (List.range p.mark).map some ++
      (List.range p.poolSize).map fun j => (List.range p.created)[j]? := by
    rcases step_cases hstep with ⟨-, rfl⟩ | ⟨hn, -⟩
    · rw [destroyThreadpool_eq, ← hp.joined, ← hp.threads]
    · exact absurd hd hn
  have hindices := h.indices p' hstep
  have honce := h.once p' hstep
  have hall := h.all p' hstep hd
  rw [hjoined] at hindices honce hall
  -- the last index read is one of a thread
  have hsize : p.poolSize ≤ p.created := by
    apply Nat.le_of_not_lt
    intro hlt
    apply hindices
    simp only [List.mem_append, List.mem_map, List.mem_range]
    exact Or.inr ⟨p.created, hlt, by simp⟩
  -- the first thread is not joined a second time
  have hmark : p.poolSize = 0 ∨ p.mark = 0 := by
    apply Classical.byContradiction
    intro hne
    have hmem : some 0 ∈ (List.range p.mark).map some := by
      simp only [List.mem_map, List.mem_range]
      exact ⟨0, by omega, rfl⟩
    have hmem' : some 0 ∈ (List.range p.poolSize).map fun j => (List.range p.created)[j]? := by
      simp only [List.mem_map, List.mem_range]
      refine ⟨0, by omega, ?_⟩
      rw [List.getElem?_range (by omega)]
    exact (List.nodup_append.mp honce).2.2 (some 0) hmem (some 0) hmem' rfl
  -- the last thread made is joined
  have hlast : p.created = p.mark ∨ p.created ≤ p.poolSize := by
    rcases Nat.lt_or_ge p.mark p.created with hlt | hge
    · have hmem := hall (p.created - 1) (by omega) (by omega)
      simp only [List.mem_append, List.mem_map, List.mem_range, Option.some.injEq] at hmem
      rcases hmem with ⟨t, ht, heq⟩ | ⟨j, hj, heq⟩
      · omega
      · have hjc : j < p.created := by omega
        rw [List.getElem?_range hjc] at heq
        have := Option.some.inj heq
        omega
    · exact Or.inl (by omega)
  refine ⟨?_, hmark⟩
  omega

/-- **Joining**: a lifetime of the pool joins exactly the threads it made if and
only if the pool size matches whenever `destroy_threadpool` runs. -/
theorem joins_iff (calls : List Call) :
    Throughout step JoinsMade {} (calls ++ [.destruct]) ↔
      Throughout step SizeMatches {} (calls ++ [.destruct]) := by
  constructor
  · intro h
    refine Throughout.of_invariant step Joined JoinsMade SizeMatches ?_ _ joined_init _ h
    intro p c p' hp hc hstep
    have hmatch := sizeMatches_of_joinsMade hp hc
    exact ⟨hmatch, step_joined hp hmatch hstep⟩
  · intro h
    refine Throughout.of_invariant step Joined SizeMatches JoinsMade ?_ _ joined_init _ h
    intro p c p' hp hc hstep
    exact ⟨joinsMade_of_sizeMatches hp hc, step_joined hp hc hstep⟩

/-- Two threads are asked for and one is made: the destructor reads
`_threads[1]`. -/
theorem failed_start_overruns :
    ¬ Throughout step JoinsMade {} ([.setPoolSize 2, .startThreadpool (some 1)] ++ [.destruct]) := by
  intro h
  exact h.2.2.1.indices _ rfl (by decide)

end JoinPool

end Ehttp
