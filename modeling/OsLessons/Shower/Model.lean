import OsLessons.Lib.Transition
import OsLessons.Lib.Census

/-! # The unisex shower (lesson 6)

  `lesson6_shower+bonus.c`: client processes share a `state_t` in shared
  memory and four SysV semaphores. A client runs `enter_gender`, sleeps, and
  runs `leave_gender`.

  A client's program point (`Pc`) names the *next semaphore operation* it
  will perform. One step of a client performs that operation and runs the
  local code up to the next one (`Pc.after`). All accesses to `state_t` lie
  between `P(SEM_MUTEX)` and `V(SEM_MUTEX)`, so this is the granularity of
  single semaphore operations.

  `state_t` is kept field by field; `in_`, `wait` and `streak` read the field
  of one sex, so that statements about men and women are written once.
-/

namespace Shower

open Lts

/-! ### Data -/

/-- `MEN` and `WOMEN`; the constant `NONE` of `current_gender` is `none`. -/
inductive Gender where
  | MEN
  | WOMEN
  deriving DecidableEq, Repr

/-- The opposite sex. -/
def Gender.other : Gender → Gender
  | .MEN => .WOMEN
  | .WOMEN => .MEN

@[simp] theorem Gender.other_MEN : Gender.other .MEN = .WOMEN := rfl
@[simp] theorem Gender.other_WOMEN : Gender.other .WOMEN = .MEN := rfl

theorem Gender.eq_or_eq_other (g h : Gender) : h = g ∨ h = g.other := by
  cases g <;> cases h <;> simp

@[simp] theorem Gender.other_ne (g : Gender) : g.other ≠ g := by cases g <;> simp
@[simp] theorem Gender.ne_other (g : Gender) : g ≠ g.other := by cases g <;> simp

/-- Semaphore numbers `SEM_MUTEX`, `SEM_CAP`, `SEM_MQ`, `SEM_WQ`. -/
inductive Sem where
  | MUTEX
  | CAP
  | MQ
  | WQ
  deriving DecidableEq, Repr

/-- The waiting queue of one sex. -/
def Gender.queue : Gender → Sem
  | .MEN => .MQ
  | .WOMEN => .WQ

/-- `state_t`, the shared memory segment. -/
@[ext]
structure Shared where
  men_in : ℤ
  women_in : ℤ
  men_wait : ℤ
  women_wait : ℤ
  current_gender : Option Gender
  men_streak : ℤ
  women_streak : ℤ
  turn : Gender
  N : ℤ
  deriving DecidableEq, Repr

namespace Shared

/-- `men_in` or `women_in`. -/
def in_ (S : Shared) : Gender → ℤ
  | .MEN => S.men_in
  | .WOMEN => S.women_in

/-- `men_wait` or `women_wait`. -/
def wait (S : Shared) : Gender → ℤ
  | .MEN => S.men_wait
  | .WOMEN => S.women_wait

/-- `men_streak` or `women_streak`. -/
def streak (S : Shared) : Gender → ℤ
  | .MEN => S.men_streak
  | .WOMEN => S.women_streak

/-- Nobody is inside: `men_in == 0 && women_in == 0`. -/
def empty (S : Shared) : Bool := S.men_in == 0 && S.women_in == 0

theorem empty_iff (S : Shared) : S.empty = true ↔ ∀ g, S.in_ g = 0 := by
  simp only [empty, Bool.and_eq_true, beq_iff_eq]
  constructor
  · rintro ⟨hm, hw⟩ g
    cases g <;> assumption
  · exact fun h => ⟨h .MEN, h .WOMEN⟩

end Shared

/-! ### Semaphore operations -/

/-- The largest value of a SysV semaphore. -/
def SEMVMX : ℕ := 32767

/-- What one `semop` does: block, fail with `ERANGE`, or set the value. -/
inductive SemopResult where
  | blocks
  | erange
  | ok (v : ℕ)
  deriving DecidableEq, Repr

/-- `semop` with one operation `sem_op = delta` on a semaphore of value `v`. -/
def semop (v : ℕ) (delta : ℤ) : SemopResult :=
  -- the kernel refuses a value above `SEMVMX`
  if 0 < delta then
    if (SEMVMX : ℤ) < v + delta then .erange else .ok (v + delta).toNat
  else if delta = 0 then
    if v = 0 then .ok 0 else .blocks
  else
    if 0 ≤ v + delta then .ok (v + delta).toNat else .blocks

/-- The conversion `(short)k`. -/
def toShort (k : ℤ) : ℤ := Int.bmod k 65536

/-- A successful `semop` adds `delta`. -/
theorem semop_ok {v v' : ℕ} {delta : ℤ} (h : semop v delta = .ok v') : (v' : ℤ) = v + delta := by
  unfold semop at h
  split at h
  · split at h <;> simp only [reduceCtorEq, SemopResult.ok.injEq] at h
    omega
  · split at h
    · split at h <;> simp only [reduceCtorEq, SemopResult.ok.injEq] at h
      omega
    · split at h <;> simp only [reduceCtorEq, SemopResult.ok.injEq] at h
      omega

/-- `semop` fails only when a positive operation passes `SEMVMX`. -/
theorem semop_erange {v : ℕ} {delta : ℤ} (h : semop v delta = .erange) :
    0 < delta ∧ (SEMVMX : ℤ) < v + delta := by
  unfold semop at h
  split at h
  · split at h
    · exact ⟨by assumption, by assumption⟩
    · cases h
  · split at h <;> split at h <;> cases h

/-- A positive operation never blocks. -/
theorem semop_up_not_blocks {v : ℕ} {delta : ℤ} (h : 0 < delta) : semop v delta ≠ .blocks := by
  simp only [semop, h, ↓reduceIte]
  split <;> simp

/-- `P` blocks exactly at value zero. -/
theorem semop_down_blocks {v : ℕ} : semop v (-1) = .blocks ↔ v = 0 := by
  simp only [semop, show ¬ (0 : ℤ) < -1 by omega, show ¬ (-1 : ℤ) = 0 by omega, ↓reduceIte]
  split <;> simp <;> omega

theorem toShort_eq {k : ℤ} (h₀ : 0 ≤ k) (h : k ≤ SEMVMX) : toShort k = k := by
  simp only [SEMVMX] at h
  simp only [toShort, Int.bmod_def]
  omega

/-! ### Entering and leaving, between two semaphore operations -/

/-- `get_max_streak`. `env` is `atoi` of the environment variable
    `MAX_STREAK` of the calling process, `none` if unset or empty; `N` is
    `S->N`. -/
def get_max_streak (env : Option ℤ) (N : ℤ) : ℤ :=
  match env with
  | some v => if 0 < v then v else if 0 < N then 2 * N else 4
  | none => if 0 < N then 2 * N else 4

theorem get_max_streak_pos (env : Option ℤ) (N : ℤ) : 0 < get_max_streak env N := by
  unfold get_max_streak
  split <;> split <;> try split
  all_goals omega

/-- `other_inside` of `enter_gender`. -/
def other_inside (who : Gender) (S : Shared) : Bool :=
  match who with
  | .MEN => decide (0 < S.women_in)
  | .WOMEN => decide (0 < S.men_in)

/-- `cur_none_or_me` of `enter_gender`. -/
def cur_none_or_me (who : Gender) (S : Shared) : Bool :=
  S.current_gender == none || S.current_gender == some who

/-- `fairness_block` of `enter_gender`. -/
def fairness_block (MAX_STREAK : ℤ) (who : Gender) (S : Shared) : Bool :=
  match who with
  | .MEN =>
      decide (MAX_STREAK ≤ S.men_streak) && decide (0 < S.women_wait) &&
        S.current_gender != some .WOMEN
  | .WOMEN =>
      decide (MAX_STREAK ≤ S.women_streak) && decide (0 < S.men_wait) &&
        S.current_gender != some .MEN

/-- `allow` of `enter_gender`; the recheck computes the same value again. -/
def allow (MAX_STREAK : ℤ) (who : Gender) (S : Shared) : Bool :=
  cur_none_or_me who S && !other_inside who S && !fairness_block MAX_STREAK who S

/-- `men_wait++` or `women_wait++`. -/
def register (who : Gender) (S : Shared) : Shared :=
  match who with
  | .MEN => { S with men_wait := S.men_wait + 1 }
  | .WOMEN => { S with women_wait := S.women_wait + 1 }

/-- The updates of a client that is let in. -/
def enter (who : Gender) (S : Shared) : Shared :=
  match who with
  | .MEN => { S with
      current_gender := some .MEN
      men_in := S.men_in + 1
      men_streak := S.men_streak + 1
      women_streak := 0 }
  | .WOMEN => { S with
      current_gender := some .WOMEN
      women_in := S.women_in + 1
      women_streak := S.women_streak + 1
      men_streak := 0 }

/-- `men_in--` or `women_in--`. -/
def leave (who : Gender) (S : Shared) : Shared :=
  match who with
  | .MEN => { S with men_in := S.men_in - 1 }
  | .WOMEN => { S with women_in := S.women_in - 1 }

/-- `wake_women_locked` up to its `Vq_k`; `k` is the old `women_wait`. -/
def wake_women_locked (S : Shared) : Shared :=
  { S with
    women_wait := 0
    current_gender := some .WOMEN
    turn := .MEN
    men_streak := 0
    women_streak := 0 }

/-- `wake_men_locked` up to its `Vq_k`; `k` is the old `men_wait`. -/
def wake_men_locked (S : Shared) : Shared :=
  { S with
    men_wait := 0
    current_gender := some .MEN
    turn := .WOMEN
    men_streak := 0
    women_streak := 0 }

/-- The wake function of one sex. -/
def wake_locked (g : Gender) (S : Shared) : Shared :=
  match g with
  | .MEN => wake_men_locked S
  | .WOMEN => wake_women_locked S

/-- What the client that empties the shower decides in `leave_gender`:
    whom to wake and why, or `none` if nobody waits. -/
def decide_wake (MAX_STREAK : ℤ) (S : Shared) : Option (Gender × String) :=
  if 0 < S.women_wait ∧ S.men_wait = 0 then some (.WOMEN, "only_women_wait")
  else if 0 < S.men_wait ∧ S.women_wait = 0 then some (.MEN, "only_men_wait")
  else if 0 < S.women_wait ∧ 0 < S.men_wait then
    if MAX_STREAK ≤ S.men_streak ∧ S.women_streak < MAX_STREAK then
      some (.WOMEN, "men_streak_reached")
    else if MAX_STREAK ≤ S.women_streak ∧ S.men_streak < MAX_STREAK then
      some (.MEN, "women_streak_reached")
    else if S.turn = .WOMEN then some (.WOMEN, "turn")
    else some (.MEN, "turn")
  else none

/-- The `else` branch of `leave_gender`: the shower becomes idle. -/
def go_idle (S : Shared) : Shared :=
  { S with current_gender := none, men_streak := 0, women_streak := 0 }

/-! ### Program points -/

/-- Lines printed by a client: the tags of `log_state_locked` and the
    `[SWITCH]` line of the wake functions. -/
inductive Log where
  | wait (who : Gender) (recheck : Bool)
  | enter (who : Gender)
  | leave (who : Gender)
  | switch (cur : Gender) (woke : ℤ) (reason : String)
  deriving DecidableEq, Repr

/-- The next semaphore operation of a client. -/
inductive Pc where
  /-- not forked yet -/
  | notStarted
  /-- `P(SEM_MUTEX)` at the top of the loop of `enter_gender` -/
  | loop
  /-- `V(SEM_MUTEX)` after a positive first check -/
  | allowed
  /-- `P(SEM_CAP)` -/
  | capWait
  /-- `P(SEM_MUTEX)` before the second check -/
  | recheck
  /-- `V(SEM_MUTEX)` after a negative second check -/
  | denied
  /-- `V(SEM_CAP)` after a negative second check -/
  | giveBack
  /-- `P(SEM_MUTEX)` before registering on the recheck path -/
  | register
  /-- `V(SEM_MUTEX)` after registering as waiting -/
  | registered
  /-- `Pq` -/
  | queue
  /-- `V(SEM_MUTEX)` at the end of `enter_gender` -/
  | entered
  /-- `P(SEM_MUTEX)` of `leave_gender`, after the `msleep` of `client_once` -/
  | inside
  /-- `V(SEM_CAP)` of `leave_gender` -/
  | leaving
  /-- `Vq_k` of a wake function -/
  | waking (g : Gender) (k : ℤ)
  /-- `V(SEM_MUTEX)` of `leave_gender` -/
  | left
  /-- `_exit(0)` -/
  | finished
  /-- `exit(1)` from `die` after a failed `semop` -/
  | died
  deriving DecidableEq, Repr

namespace Pc

/-- Semaphore number and `sem_op` of the next operation. -/
def op (who : Gender) : Pc → Option (Sem × ℤ)
  | .loop | .recheck | .register | .inside => some (.MUTEX, -1)
  | .allowed | .denied | .registered | .entered | .left => some (.MUTEX, 1)
  | .capWait => some (.CAP, -1)
  | .giveBack | .leaving => some (.CAP, 1)
  | .queue => some (who.queue, -1)
  | .waking g k => some (g.queue, toShort k)
  | .notStarted | .finished | .died => none

/-- The local code that follows the operation, up to the next one. -/
def after (MAX_STREAK : ℤ) (who : Gender) (S : Shared) : Pc → Shared × Pc × List Log
  -- `enter_gender`, first check
  | .loop =>
      if allow MAX_STREAK who S then (S, .allowed, [])
      else (Shower.register who S, .registered, [.wait who false])
  | .allowed => (S, .capWait, [])
  | .capWait => (S, .recheck, [])
  -- second check, with a slot taken
  | .recheck =>
      if allow MAX_STREAK who S then (Shower.enter who S, .entered, [.enter who])
      else (S, .denied, [])
  | .denied => (S, .giveBack, [])
  | .giveBack => (S, .register, [])
  -- unlike after the first check, the mutex has been free in between
  | .register => (Shower.register who S, .registered, [.wait who true])
  | .registered => (S, .queue, [])
  -- `continue`
  | .queue => (S, .loop, [])
  | .entered => (S, .inside, [])
  -- `leave_gender`
  | .inside => (Shower.leave who S, .leaving, [])
  | .leaving =>
      if S.empty then
        match decide_wake MAX_STREAK S with
        | some (g, reason) =>
            -- `Vq_k` returns at once for `k == 0`
            if S.wait g = 0 then
              (wake_locked g S, .left, [.switch g (S.wait g) reason, .leave who])
            else (wake_locked g S, .waking g (S.wait g), [.switch g (S.wait g) reason])
        | none => (go_idle S, .left, [.leave who])
      else (S, .left, [.leave who])
  | .waking _ _ => (S, .left, [.leave who])
  | .left => (S, .finished, [])
  | pc => (S, pc, [])

/-- `SEM_UNDO` adjustment of a process at a program point: what the kernel
    adds back to a semaphore if the process exits there. -/
def semadj : Pc → Sem → ℕ
  | .allowed, .MUTEX | .denied, .MUTEX | .registered, .MUTEX | .entered, .MUTEX => 1
  | .leaving, .MUTEX | .waking _ _, .MUTEX | .left, .MUTEX => 1
  | .recheck, .CAP | .denied, .CAP | .giveBack, .CAP => 1
  | .entered, .CAP | .inside, .CAP | .leaving, .CAP => 1
  | _, _ => 0

@[simp] theorem semadj_died (k : Sem) : died.semadj k = 0 := rfl

end Pc

/-! ### The system of all clients -/

/-- Parameters of a run: the argument of `cmd_init`, and for every client its
    sex and its environment (see `get_max_streak`). -/
structure Config (C : Type*) where
  N : ℤ
  who : C → Gender
  env : C → Option ℤ

/-- Shared memory, semaphores and the program point of every client. -/
structure State (C : Type*) where
  S : Shared
  sem : Sem → ℕ
  pc : C → Pc

variable {C : Type*}

/-- The state after a successful `cmd_init`. -/
def initState (N : ℤ) : State C where
  S := {
    men_in := 0, women_in := 0, men_wait := 0, women_wait := 0
    current_gender := none, men_streak := 0, women_streak := 0
    turn := .MEN, N := N }
  sem := fun
    | .MUTEX => 1
    | .CAP => N.toNat
    | .MQ | .WQ => 0
  pc := fun _ => .notStarted

/-- `cmd_init`; fails in `SETVAL` for a capacity no semaphore can hold. -/
def cmd_init (N : ℤ) : Option (State C) :=
  if N < 0 ∨ (SEMVMX : ℤ) < N then none else some (initState N)

theorem cmd_init_eq_some {N : ℤ} {s : State C} :
    cmd_init N = some s ↔ 0 ≤ N ∧ N ≤ SEMVMX ∧ s = initState N := by
  unfold cmd_init
  split
  · next h =>
    simp only [reduceCtorEq, false_iff]
    rintro ⟨h₀, h₁, _⟩
    omega
  · next h =>
    simp only [Option.some.injEq]
    constructor
    · rintro rfl
      exact ⟨by omega, by omega, rfl⟩
    · exact fun h => h.2.2.symm

section init
variable (N : ℤ) (g : Gender)

@[simp] theorem initState_in_ : (initState N : State C).S.in_ g = 0 := by cases g <;> rfl
@[simp] theorem initState_wait : (initState N : State C).S.wait g = 0 := by cases g <;> rfl
@[simp] theorem initState_streak : (initState N : State C).S.streak g = 0 := by cases g <;> rfl
@[simp] theorem initState_current_gender :
    (initState N : State C).S.current_gender = none := rfl
@[simp] theorem initState_queue : (initState N : State C).sem g.queue = 0 := by cases g <;> rfl
@[simp] theorem initState_pc (c : C) : (initState N : State C).pc c = .notStarted := rfl

end init

variable [DecidableEq C]

/-- `die` after a failed `semop`: the kernel undoes the `SEM_UNDO` operations. -/
def die (s : State C) (c : C) : State C :=
  { s with
    sem := fun k => s.sem k + (s.pc c).semadj k
    pc := Function.update s.pc c .died }

/-- One step of client `c`, with the lines it prints; `none` if it blocks or
    has ended. A client that is not started yet is forked by `spawn_many`. -/
def next (cfg : Config C) (s : State C) (c : C) : Option (State C × List Log) :=
  if s.pc c = .notStarted then
    some ({ s with pc := Function.update s.pc c .loop }, [])
  else
    match (s.pc c).op (cfg.who c) with
    | none => none
    | some (k, delta) =>
      match semop (s.sem k) delta with
      | .blocks => none
      | .erange => some (die s c, [])
      | .ok v =>
        let r := (s.pc c).after (get_max_streak (cfg.env c) s.S.N) (cfg.who c) s.S
        some ({ S := r.1, sem := Function.update s.sem k v,
                pc := Function.update s.pc c r.2.1 }, r.2.2)

/-- A step of the system: which client moves and what it prints. -/
structure Event (C : Type*) where
  client : C
  log : List Log

/-- The clients of one shower, interleaved in any order. -/
def shower (cfg : Config C) : System (State C) (Event C) where
  init s := cmd_init cfg.N = some s
  step s e s' := next cfg s e.client = some (s', e.log)

/-- What a step can do: fork the client, let it die in a failed `semop`, or
    perform its semaphore operation and the local code after it. -/
theorem next_cases {cfg : Config C} {s s' : State C} {c : C} {log : List Log}
    (h : next cfg s c = some (s', log)) :
    (s.pc c = .notStarted ∧ log = [] ∧
      s' = { s with pc := Function.update s.pc c .loop }) ∨
    (∃ k delta, (s.pc c).op (cfg.who c) = some (k, delta) ∧
      semop (s.sem k) delta = .erange ∧ log = [] ∧ s' = die s c) ∨
    (∃ k delta v S' pc', (s.pc c).op (cfg.who c) = some (k, delta) ∧
      semop (s.sem k) delta = .ok v ∧
      (s.pc c).after (get_max_streak (cfg.env c) s.S.N) (cfg.who c) s.S = (S', pc', log) ∧
      s' = { S := S', sem := Function.update s.sem k v,
             pc := Function.update s.pc c pc' }) := by
  unfold next at h
  split at h
  -- `fork` in `spawn_many`
  · next hpc =>
    simp only [Option.some.injEq, Prod.mk.injEq] at h
    exact .inl ⟨hpc, h.2.symm, h.1.symm⟩
  · split at h
    · cases h
    · next k delta hop =>
      split at h
      · cases h
      · next he =>
        simp only [Option.some.injEq, Prod.mk.injEq] at h
        exact .inr (.inl ⟨k, delta, hop, he, h.2.symm, h.1.symm⟩)
      · next v hv =>
        simp only [Option.some.injEq, Prod.mk.injEq] at h
        exact .inr (.inr ⟨k, delta, v, _, _, hop, hv, Prod.ext rfl (Prod.ext rfl h.2), h.1.symm⟩)

end Shower
