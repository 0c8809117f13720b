import OsLessons.Lib.MsgQueue

/-! # The message-queue choir

  `lesson13_bogatyr.c`: `n` processes share one SysV message queue. Whoever
  takes the `LOCK` token becomes the conductor, collects the registrations,
  gives every process at most one byte of the song, and then goes through the
  song: the owner of a byte gets a `TURN`, writes the byte and answers `ACK`.
  At the end every worker gets `DONE` and answers `BYE`.

  A process is named by its pid. The launcher puts the `LOCK` token into the
  queue before it forks, so all processes start in the same code, at their
  registration. `op` is the code of `main` from there on, one system call (or
  one branch without a call) at a time; `xmsgsnd` and `xmsgrcv` retry after
  `EINTR`, which is invisible here.
-/

namespace Bogatyr

open Lts MsgQueue

/-! ### Messages -/

def MT_LOCK : ℕ := 1
def MT_REG : ℕ := 2
def MT_ACK : ℕ := 3

/-- The mailbox of a process. -/
def MT_TO (pid : ℕ) : ℕ := pid + 1000

/-- `enum kind`. -/
inductive Kind where
  | REG
  | ASSIGN
  | TURN
  | DONE
  | ACK
  | BYE
  | LOCK
  deriving DecidableEq, Repr

/-- `struct msg`. The song position `seq` is an `int` in the source. -/
structure Msg where
  mtype : ℕ
  kind : Kind
  pid : ℕ
  seq : ℕ
  ch : UInt8
  deriving DecidableEq, Repr

/-- The token the launcher sends. -/
def lockMsg : Msg := { mtype := MT_LOCK, kind := .LOCK, pid := 0, seq := 0, ch := 0 }

/-! ### Sorting and unique symbols -/

/-- `cmp_pid`. -/
def cmp_pid (a b : ℕ) : ℤ := (if b < a then 1 else 0) - (if a < b then 1 else 0)

/-- `qsort(pids, n, sizeof(pid_t), cmp_pid)`. -/
def qsort (pids : List ℕ) : List ℕ := pids.insertionSort fun a b => cmp_pid a b ≤ 0

/-- A C string: its bytes up to the terminating NUL. -/
structure CStr where
  bytes : List UInt8
  no_nul : (0 : UInt8) ∉ bytes

/-- The loop of `collect_unique` over the rest of the string. -/
def collect_unique_from (out_cap : ℕ) :
    List UInt8 → (UInt8 → Bool) → List UInt8 → List UInt8
  | [], _, out => out
  | c :: s, seen, out =>
      -- `if (!seen[c])`; the loop ends early when `out` is full
      if seen c then collect_unique_from out_cap s seen out
      else if out.length < out_cap then
        collect_unique_from out_cap s (Function.update seen c true) (out ++ [c])
      else out

/-- `collect_unique`: the array `out` up to the returned length. -/
def collect_unique (s : CStr) (out_cap : ℕ) : List UInt8 :=
  collect_unique_from out_cap s.bytes (fun _ => false) []

/-- The loop that fills `owner[256]`; `none` is the entry `(pid_t)-1`. -/
def fill_owner : List (UInt8 × ℕ) → (UInt8 → Option ℕ) → UInt8 → Option ℕ
  | [], owner => owner
  | (c, p) :: rest, owner => fill_owner rest (Function.update owner c (some p))

/-- The array `owner`: byte `uniq[i]` belongs to `pids[i]`. -/
def owner_of (uniq : List UInt8) (pids : List ℕ) : UInt8 → Option ℕ :=
  fill_owner (uniq.zip pids) fun _ => none

/-- The search for the byte that belongs to `pid`; `0` if there is none. -/
def find_assigned (uniq : List UInt8) (owner : UInt8 → Option ℕ) (pid : ℕ) : UInt8 :=
  (uniq.find? fun c => owner c = some pid).getD 0

/-! ### Program points -/

/-- How a process ends: `return 0`, `return 3` after the emergency stop, one
    of the explicit `exit`s, or `die`. -/
inductive Exit where
  | success
  | emergency
  | badREG
  | badACK
  | badASSIGN
  | died
  deriving DecidableEq, Repr

/-- The exit status. -/
def Exit.status : Exit → ℕ
  | .success => 0
  | .died => 1
  | .badREG => 2
  | .emergency => 3
  | .badACK => 4
  | .badASSIGN => 5

/-- Where a process is, with the loop variables it needs there. -/
inductive Pc where
  /-- sends its `REG` -/
  | register
  /-- tries to take the `LOCK` -/
  | tryLock
  /-- conductor: head of the loop that collects the registrations -/
  | collect (pids : List ℕ)
  /-- conductor: head of the loop of the emergency stop -/
  | emergency (pids : List ℕ) (i : ℕ)
  /-- conductor: head of the loop that sends `ASSIGN` -/
  | assign (pids : List ℕ) (i : ℕ)
  /-- conductor: head of the loop over the song -/
  | sing (pids : List ℕ) (seq : ℕ)
  /-- conductor: waits for the `ACK` of position `seq` -/
  | awaitAck (pids : List ℕ) (seq : ℕ)
  /-- conductor: head of the loop that sends `DONE` -/
  | dismiss (pids : List ℕ) (i : ℕ)
  /-- conductor: head of the loop that waits for `BYE` -/
  | awaitBye (bye_need : ℕ)
  /-- worker: waits for its `ASSIGN` -/
  | awaitAssign
  /-- worker: waits for `TURN` or `DONE` -/
  | ready
  /-- worker: has received a `TURN` -/
  | turned (seq : ℕ) (ch : UInt8)
  /-- worker: sends the `ACK` -/
  | sendAck (seq : ℕ)
  /-- worker: sends the `BYE` -/
  | sendBye
  | exited (e : Exit)
  deriving DecidableEq, Repr

/-- Program points only a conductor reaches, apart from its end. -/
def Pc.conducting : Pc → Bool
  | .collect _ | .emergency _ _ | .assign _ _ | .sing _ _ | .awaitAck _ _ | .dismiss _ _
  | .awaitBye _ => true
  | _ => false

/-- The local variables of a process that outlive a loop. -/
structure Proc where
  pc : Pc
  is_conductor : Bool
  my_ch : UInt8
  deriving DecidableEq, Repr

/-- Move to another program point. -/
def Proc.at (P : Proc) (pc : Pc) : Proc := { P with pc := pc }

@[simp] theorem Proc.at_pc (P : Proc) (pc : Pc) : (P.at pc).pc = pc := rfl
@[simp] theorem Proc.at_is_conductor (P : Proc) (pc : Pc) :
    (P.at pc).is_conductor = P.is_conductor := rfl
@[simp] theorem Proc.at_my_ch (P : Proc) (pc : Pc) : (P.at pc).my_ch = P.my_ch := rfl

/-- `xmsgsnd`: continue at `pc`, or `die`. -/
def Proc.xmsgsnd (P : Proc) (m : Msg) (pc : Pc) : Op Msg Proc :=
  .msgsnd m fun ok => P.at (if ok then pc else .exited .died)

/-- A blocking `xmsgrcv` whose caller calls `die` if it fails. -/
def Proc.xmsgrcv (P : Proc) (t : ℕ) (k : Msg → Proc) : Op Msg Proc :=
  .msgrcv t false fun
    | some m => k m
    | none => P.at (.exited .died)

@[simp] theorem Proc.then_xmsgsnd {P : Proc} {m : Msg} {pc : Pc} {Q : Proc → Prop} :
    (P.xmsgsnd m pc).Then Q ↔ Q (P.at pc) ∧ Q (P.at (.exited .died)) := by
  simp [Proc.xmsgsnd]

@[simp] theorem Proc.then_xmsgrcv {P : Proc} {t : ℕ} {k : Msg → Proc} {Q : Proc → Prop} :
    (P.xmsgrcv t k).Then Q ↔ (∀ m, Q (k m)) ∧ Q (P.at (.exited .died)) := by
  simp [Proc.xmsgrcv]

/-! ### The code of a process -/

/-- Parameters of a run: the pids of the `n` processes, the song, and how many
    messages the queue holds (`none`: any number). -/
structure Config where
  pids : Finset ℕ
  song : CStr
  cap : Option ℕ

/-- The number of processes. -/
def Config.n (cfg : Config) : ℕ := cfg.pids.card

/-- `L == 0 || song[L - 1] != '\n'`. -/
def needs_newline (song : CStr) : Bool := song.bytes.getLast? != some 10

/-- The message sent by process `self` to register. -/
def regMsg (self : ℕ) : Msg := { mtype := MT_REG, kind := .REG, pid := self, seq := 0, ch := 0 }

def assignMsg (conductor_pid pid : ℕ) (assigned : UInt8) : Msg :=
  { mtype := MT_TO pid, kind := .ASSIGN, pid := conductor_pid, seq := 0, ch := assigned }

def turnMsg (conductor_pid singer seq : ℕ) (c : UInt8) : Msg :=
  { mtype := MT_TO singer, kind := .TURN, pid := conductor_pid, seq := seq, ch := c }

def doneMsg (conductor_pid pid : ℕ) : Msg :=
  { mtype := MT_TO pid, kind := .DONE, pid := conductor_pid, seq := 0, ch := 0 }

def ackMsg (self seq : ℕ) : Msg :=
  { mtype := MT_ACK, kind := .ACK, pid := self, seq := seq, ch := 0 }

def byeMsg (self : ℕ) : Msg := { mtype := MT_ACK, kind := .BYE, pid := self, seq := 0, ch := 0 }

/-- The next thing process `self` does. -/
def op (cfg : Config) (self : ℕ) (P : Proc) : Op Msg Proc :=
  let uniq := collect_unique cfg.song 256
  match P.pc with
  -- everybody: register, then try to become the conductor
  | .register => P.xmsgsnd (regMsg self) .tryLock
  | .tryLock =>
      .msgrcv MT_LOCK true fun
        | some tmp =>
            if tmp.kind = .LOCK then { P with pc := .collect [], is_conductor := true }
            else P.at .awaitAssign
        | none => P.at .awaitAssign
  | .collect pids =>
      if pids.length < cfg.n then
        P.xmsgrcv MT_REG fun m =>
          P.at (if m.kind = .REG then .collect (pids ++ [m.pid]) else .exited .badREG)
      else if cfg.n < uniq.length then .compute (P.at (.emergency (qsort pids) 0))
      else .compute (P.at (.assign (qsort pids) 0))
  -- conductor: more symbols than processes, stop everybody
  | .emergency pids i =>
      match pids[i]? with
      | some pid => P.xmsgsnd (doneMsg self pid) (.emergency pids (i + 1))
      | none => .rmid (P.at (.exited .emergency))
  -- conductor: `ASSIGN` to everybody, itself included
  | .assign pids i =>
      match pids[i]? with
      | some pid =>
          let assigned := find_assigned uniq (owner_of uniq pids) pid
          .msgsnd (assignMsg self pid assigned) fun
            | true =>
                { P with
                  pc := .assign pids (i + 1)
                  my_ch := if pid = self then assigned else P.my_ch }
            | false => P.at (.exited .died)
      | none => .compute (P.at (.sing pids 0))
  -- conductor: the song, byte by byte
  | .sing pids seq =>
      match cfg.song.bytes[seq]? with
      | some c =>
          match owner_of uniq pids c with
          | some singer =>
              if singer = self then
                if P.my_ch ≠ 0 then .write c (P.at (.sing pids (seq + 1)))
                else .compute (P.at (.sing pids (seq + 1)))
              else P.xmsgsnd (turnMsg self singer seq c) (.awaitAck pids seq)
          | none => .compute (P.at (.sing pids (seq + 1)))
      | none =>
          if needs_newline cfg.song then .write 10 (P.at (.dismiss pids 0))
          else .compute (P.at (.dismiss pids 0))
  | .awaitAck pids seq =>
      P.xmsgrcv MT_ACK fun ack =>
        P.at (if ack.kind = .ACK ∧ ack.seq = seq then .sing pids (seq + 1) else .exited .badACK)
  -- conductor: `DONE` to the workers, then one `BYE` from each
  | .dismiss pids i =>
      match pids[i]? with
      | some pid =>
          if pid = self then .compute (P.at (.dismiss pids (i + 1)))
          else P.xmsgsnd (doneMsg self pid) (.dismiss pids (i + 1))
      | none => .compute (P.at (.awaitBye (cfg.n - 1)))
  | .awaitBye bye_need =>
      if 0 < bye_need then
        P.xmsgrcv MT_ACK fun bye =>
          P.at (.awaitBye (if bye.kind = .BYE then bye_need - 1 else bye_need))
      else .rmid (P.at (.exited .success))
  -- worker: its byte first, then `TURN`s until `DONE`
  | .awaitAssign =>
      P.xmsgrcv (MT_TO self) fun asg =>
        if asg.kind = .ASSIGN then { P with pc := .ready, my_ch := asg.ch }
        else P.at (.exited .badASSIGN)
  | .ready =>
      P.xmsgrcv (MT_TO self) fun m =>
        P.at (match m.kind with
          | .TURN => .turned m.seq m.ch
          | .DONE => .sendBye
          | _ => .ready)
  | .turned seq ch =>
      if P.my_ch ≠ 0 ∧ ch = P.my_ch then .write ch (P.at (.sendAck seq))
      else .compute (P.at (.sendAck seq))
  | .sendAck seq => P.xmsgsnd (ackMsg self seq) .ready
  | .sendBye => P.xmsgsnd (byeMsg self) (.exited .success)
  | .exited _ => .halt

/-! ### The choir -/

abbrev State := Host Msg Proc ℕ

/-- All processes at the point where the launcher has forked them. -/
def initState : State where
  queue := some [lockMsg]
  proc := fun _ => { pc := .register, is_conductor := false, my_ch := 0 }
  out := []

/-- One step of process `p`. -/
def next (cfg : Config) (s : State) (p : ℕ) : Option (State × Call Msg) :=
  MsgQueue.next Msg.mtype cfg.cap (op cfg) s p

/-- Which process moves, and what it does. -/
structure Event where
  pid : ℕ
  call : Call Msg

/-- The processes of one choir, interleaved in any order. -/
def choir (cfg : Config) : System State Event where
  init s := s = initState
  step s e s' := e.pid ∈ cfg.pids ∧ next cfg s e.pid = some (s', e.call)

/-- One step of process `p`, labelled with its event. -/
def nextEvent (cfg : Config) (s : State) (p : ℕ) : Option (State × Event) :=
  if p ∈ cfg.pids then (next cfg s p).map fun r => (r.1, ⟨p, r.2⟩) else none

theorem step_of_nextEvent {cfg : Config} {s s' : State} {p : ℕ} {e : Event}
    (h : nextEvent cfg s p = some (s', e)) : (choir cfg).step s e s' := by
  unfold nextEvent at h
  split at h
  · next hp =>
    obtain ⟨⟨s₁, call⟩, hn, heq⟩ := Option.map_eq_some_iff.mp h
    cases heq
    exact ⟨hp, hn⟩
  · cases h

end Bogatyr
