import OsLessons.Lib.Processes

/-! # lesson2_parent_follow

  Process 0 forks process 1, which forks process 2, and so on; each prints a
  line, flushes it and waits for the next one before it exits.

  - `Chain`: the processes in front of the active one wait, those behind it
    have been waited for.
  - `lines_in_order`: the lines come in order and the processes exit in the opposite
    order, in every interleaving.
-/

open Lts Processes

namespace ParentFollow

inductive Line where
  /-- `"Process 0 (root parent) PID: %d\n"` -/
  | root (pid : ℕ)
  /-- `"Process %d created with PID %d (parent %d)\n"` -/
  | process (i pid ppid : ℕ)
  deriving DecidableEq

/-- Local states. Process `i` prints and flushes its line; `forking i` is the
    process in front of it. -/
inductive Pc where
  | printing (i : ℕ)
  | flushing (i : ℕ)
  | forking (i : ℕ)
  | waiting
  | done
  | failed

variable (N : ℕ) (pid : ℕ → ℕ) (init : ℕ)

/-- The line of process `i`; process `p` has the id `pid p`. -/
def line (i : ℕ) (self : ℕ) (parent : Option ℕ) : Line :=
  if i = 0 then .root (pid self) else .process i (pid self) ((parent.map pid).getD init)

def op : Pc → Op Pc Line
  | .printing i => .print (line pid init i) (.flushing i)
  -- `continue` to the next `fork`, or the end of the chain
  | .flushing i => .fflush (if i < N then .forking (i + 1) else .done)
  | .forking i => .fork (.printing i) .waiting .failed
  | .waiting => .wait .done
  | .done => .exit 0
  | .failed => .exit 1

def main : Program Pc Line := ⟨.printing 0, op N pid init⟩

/-! ### The chain -/

/-- The process that forks process `j`. -/
def above : ℕ → Option ℕ
  | 0 => none
  | j + 1 => some j

/-- The line that process `j` prints. -/
def ownLine (j : ℕ) : Line := line pid init j j (above j)

/-- The first `n` lines. -/
def lines (n : ℕ) : List Line := (List.range n).map (ownLine pid init)

theorem lines_succ (n : ℕ) : lines pid init (n + 1) = lines pid init n ++ [ownLine pid init n] := by
  rw [lines, List.range_succ, List.map_append]
  rfl

/-- The code of process `j` if `k` is the last one: 1 if its `fork` failed. -/
def exitCode (k j : ℕ) : ℕ := if j = k ∧ k < N then 1 else 0

/-- The active process, number `m` of `k`: what it is at, its buffer, and what
    has been written. -/
def Active (k m : ℕ) (buf : List Line) (out : List Line) : Status Pc → Prop
  | .running (.printing i) => m = k ∧ i = k ∧ buf = [] ∧ out = lines pid init k
  | .running (.flushing i) => m = k ∧ i = k ∧
      (out = lines pid init k ∧ buf = [ownLine pid init k] ∨
        out = lines pid init (k + 1) ∧ buf = [])
  | .running (.forking i) =>
      m = k ∧ i = k + 1 ∧ k < N ∧ buf = [] ∧ out = lines pid init (k + 1)
  | .running .waiting => False
  | .running .done => exitCode N k m = 0 ∧ buf = [] ∧ out = lines pid init (k + 1)
  | .running .failed => exitCode N k m = 1 ∧ buf = [] ∧ out = lines pid init (k + 1)
  | .exited code => code = exitCode N k m ∧ buf = [] ∧ out = lines pid init (k + 1)
  | .reaped _ => False

/-- Processes 0 to `k`, of which `m` is active. -/
structure Chain (c : Config Pc Line) (k m : ℕ) : Prop where
  le : m ≤ k
  bound : k ≤ N
  length : c.procs.length = k + 1
  front : ∀ j < m, c.procs[j]? = some ⟨above j, [], .running .waiting⟩
  behind : ∀ j, m < j → j ≤ k →
    ∃ parent, c.procs[j]? = some ⟨parent, [], .reaped (exitCode N k j)⟩
  active : ∃ buf status, c.procs[m]? = some ⟨above m, buf, status⟩ ∧
    Active N pid init k m buf c.out status

variable {N pid init} {c c' : Config Pc Line} {atOnce : Line → Bool} {k m : ℕ}

theorem chain_initial : Chain N pid init (initial (main N pid init)) 0 0 where
  le := le_rfl
  bound := Nat.zero_le N
  length := rfl
  front := by simp
  behind := by intros; omega
  active := ⟨[], _, rfl, rfl, rfl, rfl, rfl⟩

/-- The active process moves on, and stays the active one. -/
theorem Chain.set (h : Chain N pid init c k m) (buf : List Line) (status : Status Pc)
    {out : List Line} (hactive : Active N pid init k m buf out status) :
    Chain N pid init ⟨c.procs.set m ⟨above m, buf, status⟩, out⟩ k m where
  le := h.le
  bound := h.bound
  length := by rw [List.length_set, h.length]
  front j hj := by
    rw [List.getElem?_set_ne (by omega)]
    exact h.front j hj
  behind j hj hle := by
    rw [List.getElem?_set_ne (by omega)]
    exact h.behind j hj hle
  active := by
    have hlt : m < c.procs.length := by
      have hlen := h.length
      have hle := h.le
      omega
    refine ⟨buf, status, ?_, hactive⟩
    rw [List.getElem?_set_self hlt]

/-- The last process forks the next one, which becomes the active one. -/
theorem Chain.fork (h : Chain N pid init c k k) (hk : k < N) (hout : c.out = lines pid init (k + 1)) :
    Chain N pid init
      ⟨c.procs.set k ⟨above k, [], .running .waiting⟩ ++ [⟨some k, [], .running (.printing (k + 1))⟩],
        c.out⟩ (k + 1) (k + 1) where
  le := le_rfl
  bound := hk
  length := by rw [List.length_append, List.length_set, h.length, List.length_singleton]
  front j hj := by
    have hlt : j < (c.procs.set k ⟨above k, [], .running .waiting⟩).length := by
      rw [List.length_set, h.length]
      exact hj
    rw [List.getElem?_append_left hlt]
    rcases Nat.lt_or_eq_of_le (Nat.le_of_lt_succ hj) with hj | rfl
    · rw [List.getElem?_set_ne (by omega)]
      exact h.front j hj
    · rw [List.getElem?_set_self (by rwa [List.length_set] at hlt)]
  behind := by intros; omega
  active := by
    refine ⟨[], .running (.printing (k + 1)), ?_, rfl, rfl, rfl, hout⟩
    rw [List.getElem?_append_right (by rw [List.length_set, h.length])]
    simp [h.length, above]

/-- The active process exits. -/
theorem Chain.exit (h : Chain N pid init c k m) {buf : List Line} {code : ℕ}
    (hcode : code = exitCode N k m) (hout : c.out ++ buf = lines pid init (k + 1)) :
    Chain N pid init ⟨(c.procs.set m ⟨above m, [], .exited code⟩).map (orphan m), c.out ++ buf⟩ k m := by
  have hset : Chain N pid init ⟨c.procs.set m ⟨above m, [], .exited code⟩, c.out ++ buf⟩ k m :=
    h.set [] (.exited code) ⟨hcode, rfl, hout⟩
  have habove : ∀ j ≤ m, above j ≠ some m := by
    intro j hj heq
    cases j with
    | zero => cases heq
    | succ j =>
      cases heq
      omega
  constructor
  · exact hset.le
  · exact hset.bound
  · rw [List.length_map]
    exact hset.length
  · intro j hj
    rw [List.getElem?_map, hset.front j hj, Option.map_some, orphan,
      if_neg (habove j (Nat.le_of_lt hj))]
  · intro j hj hle
    obtain ⟨parent, hpr⟩ := hset.behind j hj hle
    rw [List.getElem?_map, hpr, Option.map_some, orphan]
    split
    · exact ⟨none, rfl⟩
    · exact ⟨parent, rfl⟩
  · obtain ⟨buf', status, hpr, hactive⟩ := hset.active
    refine ⟨buf', status, ?_, hactive⟩
    rw [List.getElem?_map, hpr, Option.map_some, orphan, if_neg (habove m le_rfl)]

/-- The process in front of the active one waits for it. -/
theorem Chain.reap (h : Chain N pid init c k (m + 1)) {buf : List Line} {code : ℕ}
    (hexit : c.procs[m + 1]? = some ⟨above (m + 1), buf, .exited code⟩)
    (hcode : code = exitCode N k (m + 1)) (hbuf : buf = []) (hout : c.out = lines pid init (k + 1)) :
    Chain N pid init
      ⟨(c.procs.set (m + 1) ⟨some m, buf, .reaped code⟩).set m ⟨above m, [], .running .done⟩,
        c.out⟩ k m := by
  have hle := h.le
  have hlen := h.length
  subst hbuf hcode
  constructor
  · omega
  · exact h.bound
  · rw [List.length_set, List.length_set, hlen]
  · intro j hj
    rw [List.getElem?_set_ne (by omega), List.getElem?_set_ne (by omega)]
    exact h.front j (by omega)
  · intro j hj hjk
    rw [List.getElem?_set_ne (by omega)]
    rcases Nat.lt_or_eq_of_le hj with hj | rfl
    · rw [List.getElem?_set_ne (by omega)]
      exact h.behind j hj hjk
    · rw [List.getElem?_set_self (by omega)]
      exact ⟨some m, rfl⟩
  · refine ⟨[], .running .done, ?_, ?_, rfl, hout⟩
    · rw [List.getElem?_set_self (by rw [List.length_set]; omega)]
    · have hne : ¬ (m = k ∧ k < N) := by omega
      rw [exitCode, if_neg hne]

/-! ### Steps -/

/-- A process in front of the active one waits for a child that has not been
    waited for. -/
theorem Chain.awaits (h : Chain N pid init c k m) {p : ℕ} (hp : p < m) :
    ∃ pr ∈ c.procs, pr.awaits p := by
  rcases Nat.lt_or_eq_of_le hp with hlt | rfl
  · exact ⟨_, List.mem_of_getElem? (h.front (p + 1) hlt), by simp [Process.awaits, above]⟩
  · obtain ⟨buf, status, hpr, hactive⟩ := h.active
    refine ⟨_, List.mem_of_getElem? hpr, ?_⟩
    cases status with
    | reaped code => exact hactive.elim
    | running s => simp [Process.awaits, above]
    | exited code => simp [Process.awaits, above]

/-- Only the active process can have exited. -/
theorem Chain.exited (h : Chain N pid init c k m) {q : ℕ} {parent : Option ℕ} {buf : List Line}
    {code : ℕ} (hq : c.procs[q]? = some ⟨parent, buf, .exited code⟩) : q = m := by
  have hlt : q < k + 1 := by
    rw [← h.length]
    exact (List.getElem?_eq_some_iff.mp hq).1
  rcases Nat.lt_trichotomy q m with hlt | heq | hgt
  · rw [h.front q hlt] at hq
    cases hq
  · exact heq
  · obtain ⟨parent', hpr⟩ := h.behind q hgt (by omega)
    rw [hpr] at hq
    cases hq

theorem Chain.step {l : Label} (h : Chain N pid init c k m)
    (hstep : Moves (main N pid init) atOnce c l c') : ∃ k' m', Chain N pid init c' k' m' := by
  obtain ⟨parent, buf, s, hp, hafter⟩ := hstep.after
  have hlt : l.actor < k + 1 := by
    rw [← h.length]
    exact (List.getElem?_eq_some_iff.mp hp).1
  generalize l.actor = p at hp hafter hlt
  rcases Nat.lt_trichotomy p m with hpm | rfl | hpm
  -- it waits: for the next one, which is the active one
  · rw [h.front p hpm] at hp
    cases hp
    rcases hafter with ⟨hnone, -⟩ | ⟨q, buf', code, hq, rfl⟩
    · obtain ⟨pr, hmem, hawaits⟩ := h.awaits hpm
      exact absurd hawaits (hnone pr hmem)
    · have hqm := h.exited hq
      subst hqm
      obtain ⟨buf₁, status, hpr, hactive⟩ := h.active
      rw [hq] at hpr
      have hqp : q = p + 1 := by
        cases q with
        | zero => cases hpr
        | succ q =>
          have habove : p = q := by simpa [above] using congrArg (Option.map Process.parent) hpr
          rw [habove]
      subst hqp
      cases hpr
      obtain ⟨hcode, hbuf, hout⟩ := hactive
      exact ⟨k, p, h.reap hq hcode hbuf hout⟩
  · obtain ⟨buf₁, status, hpr, hactive⟩ := h.active
    rw [hp] at hpr
    cases hpr
    cases s with
    | printing i =>
      obtain ⟨rfl, rfl, rfl, hout⟩ := hactive
      change c' = _ at hafter
      subst hafter
      by_cases honce : atOnce (line pid init i i (above i))
      · have hline : c.out ++ [ownLine pid init i] = lines pid init (i + 1) := by
          rw [lines_succ, hout]
        rw [put, if_pos honce]
        exact ⟨i, i, h.set [] (.running (.flushing i)) ⟨rfl, rfl, .inr ⟨hline, rfl⟩⟩⟩
      · rw [put, if_neg honce, List.append_nil]
        exact ⟨i, i, h.set _ (.running (.flushing i)) ⟨rfl, rfl, .inl ⟨hout, rfl⟩⟩⟩
    | flushing i =>
      obtain ⟨rfl, rfl, hout⟩ := hactive
      change c' = _ at hafter
      subst hafter
      have hflushed : c.out ++ buf = lines pid init (i + 1) := by
        rcases hout with ⟨hout, rfl⟩ | ⟨hout, rfl⟩
        · rw [lines_succ, hout]
        · rw [List.append_nil, hout]
      by_cases hlast : i < N
      · rw [if_pos hlast]
        exact ⟨i, i, h.set [] (.running (.forking (i + 1))) ⟨rfl, rfl, hlast, rfl, hflushed⟩⟩
      · rw [if_neg hlast]
        have hcode : exitCode N i i = 0 := if_neg fun hand => hlast hand.2
        exact ⟨i, i, h.set [] (.running .done) ⟨hcode, rfl, hflushed⟩⟩
    | forking i =>
      obtain ⟨rfl, rfl, hk, rfl, hout⟩ := hactive
      change c' = _ ∨ c' = _ at hafter
      rcases hafter with rfl | rfl
      · exact ⟨p + 1, p + 1, h.fork hk hout⟩
      · have hcode : exitCode N p p = 1 := if_pos ⟨rfl, hk⟩
        exact ⟨p, p, h.set [] (.running .failed) ⟨hcode, rfl, hout⟩⟩
    | waiting => exact hactive.elim
    | done =>
      obtain ⟨hcode, rfl, hout⟩ := hactive
      change c' = _ at hafter
      subst hafter
      exact ⟨k, p, h.exit hcode.symm (by simpa using hout)⟩
    | failed =>
      obtain ⟨hcode, rfl, hout⟩ := hactive
      change c' = _ at hafter
      subst hafter
      exact ⟨k, p, h.exit hcode.symm (by simpa using hout)⟩
  · obtain ⟨parent', hpr⟩ := h.behind p hpm (by omega)
    rw [hpr] at hp
    cases hp

theorem chain (h : (system (main N pid init) atOnce).Reachable c) :
    ∃ k m, Chain N pid init c k m := by
  apply System.invariant ?_ ?_ h
  · intro c hc
    cases hc
    exact ⟨0, 0, chain_initial⟩
  · intro c l c' hc hstep
    obtain ⟨k, m, hchain⟩ := hc
    exact hchain.step (moves_iff.mp hstep)

/-! ### Complete runs -/

/-- The operations that are left, with those of the processes to come. -/
def weight (N : ℕ) : Pc → ℕ
  | .printing i => 5 * (N - i) + 3
  | .flushing i => 5 * (N - i) + 2
  | .forking i => 5 * (N - i) + 6
  | .waiting => 2
  | .done => 1
  | .failed => 1

theorem weighs : Weighs (main N pid init) (weight N) := by
  intro s
  cases s with
  | flushing i =>
    show weight N (if i < N then .forking (i + 1) else .done) + 1 ≤ 5 * (N - i) + 2
    split
    · rw [weight]
      omega
    · rw [weight]
      omega
  | forking i =>
    show max (5 * (N - i) + 3 + 2) 1 + 1 ≤ 5 * (N - i) + 6
    omega
  | printing i => exact le_rfl
  | waiting => exact le_rfl
  | done => exact le_rfl
  | failed => exact le_rfl

/-- A process that does not run any more. -/
def Gone (pr : Process Pc Line) : Prop := ∀ s, pr.status ≠ .running s

/-- Every run ends. What has been written at any time are the first lines in
    order, on a terminal and in a file; a process is gone only when all behind
    it have been waited for. At the end there is a line for every process up to
    the last one, or up to the one whose `fork` failed. -/
theorem lines_in_order {ls : List Label}
    (hrun : (system (main N pid init) atOnce).Run (initial (main N pid init)) ls c) :
    ls.length ≤ 5 * N + 3 ∧ (∃ n ≤ N + 1, c.out = lines pid init n) ∧
    (∀ (j j' : ℕ) (pr pr' : Process Pc Line), j < j' → c.procs[j]? = some pr → c.procs[j']? = some pr' → Gone pr →
      ∃ code, pr'.status = .reaped code) ∧
    ((∀ l c', ¬ (system (main N pid init) atOnce).step c l c') → ∃ k ≤ N,
      c.procs.length = k + 1 ∧ c.out = lines pid init (k + 1) ∧
      c.procs[0]? = some ⟨none, [], .exited (exitCode N k 0)⟩ ∧
      ∀ j : ℕ, 0 < j → j ≤ k →
        ∃ parent, c.procs[j]? = some ⟨parent, [], .reaped (exitCode N k j)⟩) := by
  have hreach : (system (main N pid init) atOnce).Reachable c := hrun.reachable (.init rfl)
  obtain ⟨k, m, h⟩ := chain hreach
  obtain ⟨buf, status, hm, hactive⟩ := h.active
  have hbound := h.bound
  have hlength := h.length
  refine ⟨run_length_le weighs hrun, ?_, ?_, ?_⟩
  · cases status with
    | running s =>
      cases s with
      | printing i => exact ⟨k, by omega, hactive.2.2.2⟩
      | flushing i =>
        obtain ⟨-, -, ⟨hout, -⟩ | ⟨hout, -⟩⟩ := hactive
        · exact ⟨k, by omega, hout⟩
        · exact ⟨k + 1, by omega, hout⟩
      | forking i => exact ⟨k + 1, by omega, hactive.2.2.2.2⟩
      | waiting => exact hactive.elim
      | done => exact ⟨k + 1, by omega, hactive.2.2⟩
      | failed => exact ⟨k + 1, by omega, hactive.2.2⟩
    | exited code => exact ⟨k + 1, by omega, hactive.2.2⟩
    | reaped code => exact hactive.elim
  · intro j j' pr pr' hj hpr hpr' hgone
    have hlt : j' < k + 1 := by
      rw [← h.length]
      exact (List.getElem?_eq_some_iff.mp hpr').1
    have hjm : m ≤ j := by
      by_contra hlt
      rw [h.front j (by omega)] at hpr
      cases hpr
      exact hgone _ rfl
    obtain ⟨parent, hbehind⟩ := h.behind j' (by omega) (by omega)
    rw [hbehind] at hpr'
    cases hpr'
    exact ⟨_, rfl⟩
  · intro hquiet
    have hstop : ∀ s, status ≠ .running s := fun s => not_running_of_quiet hreach hquiet hm s
    have hzero : m = 0 := by
      by_contra hne
      have hfront := h.front 0 (by omega)
      exact not_running_of_quiet hreach hquiet hfront _ rfl
    subst hzero
    cases status with
    | running s => exact absurd rfl (hstop s)
    | reaped code => exact hactive.elim
    | exited code =>
      obtain ⟨rfl, rfl, hout⟩ := hactive
      exact ⟨k, hbound, hlength, hout, hm, h.behind⟩

/-- Two processes, into a file. -/
def twoProcesses : Config Pc Line where
  procs := [⟨none, [], .exited 0⟩, ⟨none, [], .reaped 0⟩]
  out := [.root 7, .process 1 8 7]

theorem run_twoProcesses :
    (system (main 1 (· + 7) 1) fun _ => false).Run (initial (main 1 (· + 7) 1))
      [.act 0, .act 0, .act 0, .act 1, .act 1, .act 1, .reap 0 1, .act 0] twoProcesses :=
  .cons rfl (.cons rfl (.cons rfl (.cons rfl (.cons rfl (.cons rfl (.cons rfl (.cons rfl
    (.nil _))))))))

theorem lines_in_order_two : ∃ k ≤ 1, twoProcesses.out = lines (· + 7) 1 (k + 1) := by
  have hquiet : ∀ l c', ¬ (system (main 1 (· + 7) 1) fun _ => false).step twoProcesses l c' :=
    quiet_of_exited (by simp [twoProcesses])
  obtain ⟨k, hk, -, hout, -⟩ := (lines_in_order run_twoProcesses).2.2.2 hquiet
  exact ⟨k, hk, hout⟩

end ParentFollow
