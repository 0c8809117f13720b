import OsLessons.Single.Model
import OsLessons.Lib.Census

/-! # The program `single`: registration

  `active` is the number of processes between the increment and the decrement
  (`active_eq`). A process that finds `active = 0` finds nobody there, and the
  decrement of a process always finds itself counted.
-/

namespace Single

open Lts Semaphore Census

/-! ### Places -/

/-- Holds the semaphore. -/
def Pc.inside : Pc → ℤ
  | .choose | .postEntry | .leave | .postCleanup => 1
  | _ => 0

/-- Is between the two critical sections. -/
def Pc.InStage : Pc → Prop
  | .print _ _ | .finish | .writeNl | .cleanup | .waitCleanup => True
  | _ => False

instance : DecidablePred Pc.InStage := fun pc => by
  cases pc <;> unfold Pc.InStage <;> infer_instance

/-- Is in `active`. -/
def Pc.Counted (pc : Pc) : Prop := pc = .postEntry ∨ pc.InStage ∨ pc = .leave

instance : DecidablePred Pc.Counted := fun _ => inferInstanceAs (Decidable (_ ∨ _ ∨ _))

def Pc.counted (pc : Pc) : ℤ := if pc.Counted then 1 else 0

theorem Pc.counted_nonneg (pc : Pc) : 0 ≤ pc.counted := by
  unfold counted
  split <;> simp

variable {T : Type*}

/-! ### One process -/

/-- What one step makes of the counter and of the process, as far as counting
    goes. -/
inductive Move (sh : shared_state) (l : Proc) : shared_state → Proc → Prop where
  | choose : l.pc = .choose → Move sh l (choose sh l).1 (choose sh l).2
  | leave : l.pc = .leave → Move sh l (leave sh l).1 (leave sh l).2
  /-- anything else: the counter stays, and so does the place of the process in it -/
  | quiet {l'} : (l'.pc.Counted ↔ l.pc.Counted) → l'.msg = l.msg →
      l'.g_registered = l.g_registered → Move sh l sh l'

/-- A process that is counted will take itself out. -/
def Registered (l : Proc) : Prop := l.pc.Counted → l.g_registered = true

theorem Move.registered {sh sh' : shared_state} {l l' : Proc} (h : Move sh l sh' l')
    (hl : Registered l) : Registered l' := by
  cases h with
  | choose => exact fun _ => rfl
  | leave =>
    intro hcounted
    simp [Pc.Counted, Pc.InStage, Single.leave] at hcounted
  | quiet hcounted _ hreg =>
    intro h
    rw [hreg]
    exact hl (hcounted.mp h)

/-- The print loop stays in the stage. -/
theorem print_leads {s s' : State T} {l l' : Proc} {i : UInt64} {pc : LoopPc}
    (h : (print l i pc : Op shared_state Sem T Answer Proc).Leads (procs T) s s' l') :
    s'.data = s.data ∧ l'.pc.InStage ∧ l'.msg = l.msg ∧ l'.g_registered = l.g_registered := by
  cases pc with
  | test | written | pause | paused | advance =>
    obtain ⟨answer, hf⟩ := h
    obtain ⟨hdata, rfl⟩ := Prod.mk.inj (Option.some.inj hf)
    refine ⟨hdata.symm, ?_, rfl, rfl⟩
    first | trivial | (show Pc.InStage (ite _ _ _); split <;> trivial)
  | write =>
    obtain ⟨answer, hf⟩ := h
    cases answer <;>
    · obtain ⟨hdata, rfl⟩ := Prod.mk.inj (Option.some.inj hf)
      exact ⟨hdata.symm, trivial, rfl, rfl⟩

theorem move_of_leads {s s' : State T} {l l' : Proc} (hl : Registered l)
    (h : (main l : Op shared_state Sem T Answer Proc).Leads (procs T) s s' l') :
    Move s.data l s'.data l' := by
  obtain ⟨pc, stop_flag, g_registered, msg, out⟩ := l
  cases pc with
  | unstarted | close =>
    obtain ⟨answer, hf⟩ := h
    obtain ⟨hdata, rfl⟩ := Prod.mk.inj (Option.some.inj hf)
    rw [← hdata]
    exact .quiet (by simp [Pc.Counted, Pc.InStage]) rfl rfl
  | sigaction | sem_open | shm_open | ftruncate | mmap =>
    obtain ⟨answer, hf⟩ := h
    cases answer with
    | interrupted => cases hf
    | ok | failed =>
      obtain ⟨hdata, rfl⟩ := Prod.mk.inj (Option.some.inj hf)
      rw [← hdata]
      exact .quiet (by simp [Pc.Counted, Pc.InStage]) rfl rfl
  | waitEntry | waitCleanup =>
    obtain ⟨-, hdata, rfl⟩ := h
    rw [hdata]
    exact .quiet (by simp [Pc.Counted, Pc.InStage]) rfl rfl
  | postEntry | postCleanup =>
    obtain ⟨hdata, rfl⟩ := h
    rw [hdata]
    exact .quiet (by simp [Pc.Counted, Pc.InStage]) rfl rfl
  | choose =>
    obtain ⟨answer, hf⟩ := h
    rw [← show _ = s'.data from congrArg Prod.fst (Option.some.inj hf),
      ← show _ = l' from congrArg Prod.snd (Option.some.inj hf)]
    exact .choose rfl
  | leave =>
    obtain ⟨answer, hf⟩ := h
    rw [← show _ = s'.data from congrArg Prod.fst (Option.some.inj hf),
      ← show _ = l' from congrArg Prod.snd (Option.some.inj hf)]
    exact .leave rfl
  | print pc i =>
    obtain ⟨hdata, hstage, hmsg, hreg⟩ := print_leads h
    rw [hdata]
    exact .quiet ⟨fun _ => .inr (.inl trivial), fun _ => .inr (.inl hstage)⟩ hmsg hreg
  | finish =>
    obtain ⟨answer, hf⟩ := h
    obtain ⟨hdata, rfl⟩ := Prod.mk.inj (Option.some.inj hf)
    rw [← hdata]
    refine .quiet ?_ rfl rfl
    cases stop_flag <;> simp [Pc.Counted, Pc.InStage]
  | writeNl =>
    obtain ⟨answer, hf⟩ := h
    cases answer <;>
    · obtain ⟨hdata, rfl⟩ := Prod.mk.inj (Option.some.inj hf)
      rw [← hdata]
      exact .quiet (by simp [Pc.Counted, Pc.InStage]) rfl rfl
  | cleanup =>
    obtain ⟨answer, hf⟩ := h
    obtain ⟨hdata, rfl⟩ := Prod.mk.inj (Option.some.inj hf)
    -- who is counted has registered, and goes on to the second section
    have hreg : g_registered = true := hl (.inr (.inl trivial))
    rw [← hdata, hreg]
    exact .quiet (by simp [Pc.Counted, Pc.InStage]) rfl rfl
  | exited => cases h

variable [DecidableEq T] {s s' : State T} {e : Event T Answer}

theorem move_of_step (hl : Registered (s.thread e.thread)) (h : Step (procs T) s e s') :
    Move s.data (s.thread e.thread) s'.data (s'.thread e.thread) := by
  rcases h.leads with hleads | ⟨hdata, hhandler⟩
  · exact move_of_leads hl hleads
  · rw [hdata]
    rw [sigint_handler_eq hhandler]
    exact .quiet Iff.rfl rfl rfl

/-- The own code at the first section is `choose`. -/
theorem choose_of_step {p : T} {a : Answer} (h : Step (procs T) s (.act p a) s')
    (hp : (s.thread p).pc = .choose) : s'.thread p = (choose s.data (s.thread p)).2 := by
  have hop : (procs T).op p (s.thread p) =
      .act fun sh _ => some (choose sh (s.thread p)) := by
    show main _ = _
    unfold main
    rw [hp]
  cases h with
  | @act _ _ f d l hact hf =>
    rw [hop] at hact
    cases hact
    rw [Host.goto_thread_self]
    exact (congrArg Prod.snd (Option.some.inj hf)).symm

theorem registered (h : (single T).Reachable s) (p : T) : Registered (s.thread p) := by
  induction h generalizing p with
  | init hs =>
    cases hs
    intro hcounted
    simp [init, Pc.Counted, Pc.InStage] at hcounted
  | @step s e s' _ hstep ih =>
    rcases eq_or_ne p e.thread with rfl | hne
    · exact (move_of_step (ih _) hstep).registered (ih _)
    · rw [hstep.frame hne]
      exact ih p

/-! ### The counter -/

variable [Fintype T]

/-- **Registration**: `active` counts the processes between the increment and
    the decrement. -/
theorem active_eq (h : (single T).Reachable s) :
    s.data.active = ∑ p, (s.thread p).pc.counted := by
  induction h with
  | init hs =>
    cases hs
    simp [init, Pc.counted, Pc.Counted, Pc.InStage]
  | @step s e s' hreach hstep ih =>
    rw [sum_frame (t := e.thread) (fun _ l => Pc.counted l.pc) fun u hu => hstep.frame hu, ← ih]
    have hmove := move_of_step (registered hreach _) hstep
    generalize s'.data = sh, s'.thread e.thread = l' at hmove
    cases hmove with
    | choose hpc => simp [hpc, choose, Pc.counted, Pc.Counted, Pc.InStage]
    | leave hpc =>
      -- the process is counted itself
      have hle := Finset.single_le_sum (f := fun p => (s.thread p).pc.counted)
        (fun p _ => (s.thread p).pc.counted_nonneg) (Finset.mem_univ e.thread)
      have hself : (s.thread e.thread).pc.counted = 1 := by
        rw [hpc]
        rfl
      have hpos : s.data.active > 0 := by
        rw [ih]
        omega
      simp only [leave, hpos, ↓reduceIte, hself]
      simp [Pc.counted, Pc.Counted, Pc.InStage]
      omega
    | quiet hcounted _ _ => simp [Pc.counted, hcounted]

omit [DecidableEq T] [Fintype T] in
/-- Who holds the semaphore has taken its unit. -/
theorem main_delta (l : Proc) (sh : shared_state) :
    (main l : Op shared_state Sem T Answer Proc).Delta (unit .g_sem) (fun _ => 0)
      (fun l => l.pc.inside) l sh (· = 0) := by
  obtain ⟨pc, stop_flag, g_registered, msg, out⟩ := l
  cases pc with
  | waitEntry | postEntry | waitCleanup | postCleanup =>
    simp [main, Op.Delta, Pc.inside, unit]
  | unstarted | choose | leave | close =>
    intro answer sh' l' hf
    cases hf
    rfl
  | sigaction | sem_open | shm_open | ftruncate | mmap | writeNl =>
    intro answer sh' l' hf
    cases answer <;> cases hf <;> rfl
  | print pc i =>
    cases pc with
    | pause | advance =>
      intro answer sh' l' hf
      cases hf
      rfl
    | test | written | paused =>
      intro answer sh' l' hf
      cases hf
      simp only
      split <;> rfl
    | write =>
      intro answer sh' l' hf
      cases answer <;> cases hf <;> rfl
  | finish =>
    intro answer sh' l' hf
    cases hf
    cases stop_flag <;> rfl
  | cleanup =>
    intro answer sh' l' hf
    cases hf
    cases g_registered <;> rfl
  | exited => trivial

theorem mutex (h : (single T).Reachable s) :
    (s.sem .g_sem : ℤ) + ∑ p, (s.thread p).pc.inside = 1 := by
  obtain ⟨s₀, rfl, hvalue⟩ := conserved (I := fun _ _ => True) (fun _ _ _ => trivial)
    (fun p l sh _ => main_delta l sh) (fun p l l' _ hl => by rw [sigint_handler_eq hl]) h
  rw [value_unit, value_unit] at hvalue
  simpa [init, Pc.inside] using hvalue

theorem Pc.inside_nonneg (pc : Pc) : 0 ≤ pc.inside := by
  cases pc <;> simp [inside]

/-- Outside the critical sections, counted means in the stage. -/
theorem Pc.counted_iff {pc : Pc} (h : pc.inside = 0) : pc.Counted ↔ pc.InStage := by
  cases pc <;> first | (simp [Counted, InStage]; done) | cases h

theorem outside (h : (single T).Reachable s) {p q : T} (hp : (s.thread p).pc.inside = 1)
    (hne : q ≠ p) : (s.thread q).pc.inside = 0 := by
  have hmutex := mutex h
  have hnonneg := (s.thread q).pc.inside_nonneg
  rw [← Finset.add_sum_erase _ _ (Finset.mem_univ p), hp] at hmutex
  have hle := Finset.single_le_sum (f := fun p => (s.thread p).pc.inside)
    (fun p _ => (s.thread p).pc.inside_nonneg) (Finset.mem_erase.mpr ⟨hne, Finset.mem_univ q⟩)
  omega

/-- A process that finds the counter at zero finds nobody in the stage. -/
theorem active_eq_zero_iff (h : (single T).Reachable s) {p : T}
    (hp : (s.thread p).pc = .choose) :
    s.data.active = 0 ↔ ∀ q, q ≠ p → ¬ (s.thread q).pc.InStage := by
  have hinside : (s.thread p).pc.inside = 1 := by
    rw [hp]
    rfl
  rw [active_eq h, Finset.sum_eq_zero_iff_of_nonneg fun q _ => (s.thread q).pc.counted_nonneg]
  constructor
  · intro hzero q hq hstage
    have hq₀ := hzero q (Finset.mem_univ q)
    rw [Pc.counted, if_pos ((Pc.counted_iff (outside h hinside hq)).mpr hstage)] at hq₀
    cases hq₀
  · intro hnobody q _
    rcases eq_or_ne q p with rfl | hq
    · rw [hp]
      rfl
    · rw [Pc.counted, if_neg fun hc => hnobody q hq ((Pc.counted_iff (outside h hinside hq)).mp hc)]

/-- Of the processes that are counted at most one has chosen `Hello world`. -/
theorem hello_unique (h : (single T).Reachable s) {p q : T} (hp : (s.thread p).pc.Counted)
    (hq : (s.thread q).pc.Counted) (hpm : (s.thread p).msg = some .hello)
    (hqm : (s.thread q).msg = some .hello) : p = q := by
  induction h generalizing p q with
  | init hs =>
    cases hs
    simp [init, Pc.Counted, Pc.InStage] at hp
  | @step s e s' hreach hstep ih =>
    have hmove := move_of_step (registered hreach _) hstep
    have hframe : ∀ u, u ≠ e.thread → s'.thread u = s.thread u := fun u hu => hstep.frame hu
    generalize e.thread = t at hmove hframe
    generalize hl : s'.thread t = l', hsh : s'.data = sh' at hmove
    cases hmove with
    | choose hpc =>
      -- a newcomer that says `Hello world` has found nobody
      have hnew : ∀ u, u ≠ t → (s'.thread t).msg = some .hello → ¬ (s'.thread u).pc.Counted := by
        intro u hu hm hc
        rw [hframe u hu] at hc
        have hstage := (Pc.counted_iff (outside hreach (by rw [hpc]; rfl) hu)).mp hc
        refine (active_eq_zero_iff hreach hpc).mp ?_ u hu hstage
        rw [hl] at hm
        by_contra hne
        simp [choose, hne] at hm
      by_cases hpt : p = t <;> by_cases hqt : q = t
      · rw [hpt, hqt]
      · rw [hpt] at hpm
        exact absurd hq (hnew q hqt hpm)
      · rw [hqt] at hqm
        exact absurd hp (hnew p hpt hqm)
      · rw [hframe p hpt] at hp hpm
        rw [hframe q hqt] at hq hqm
        exact ih hp hq hpm hqm
    | leave hpc =>
      have hstay : ∀ u, (s'.thread u).pc.Counted → u ≠ t := by
        rintro u hc rfl
        rw [hl] at hc
        simp [leave, Pc.Counted, Pc.InStage] at hc
      have hpt := hstay p hp
      have hqt := hstay q hq
      rw [hframe p hpt] at hp hpm
      rw [hframe q hqt] at hq hqm
      exact ih hp hq hpm hqm
    | quiet hcounted hmsg _ =>
      have hsame : ∀ u, ((s'.thread u).pc.Counted ↔ (s.thread u).pc.Counted) ∧
          (s'.thread u).msg = (s.thread u).msg := by
        intro u
        rcases eq_or_ne u t with rfl | hne
        · rw [hl]
          exact ⟨hcounted, hmsg⟩
        · rw [hframe u hne]
          exact ⟨Iff.rfl, rfl⟩
      rw [(hsame p).1] at hp
      rw [(hsame q).1] at hq
      rw [(hsame p).2] at hpm
      rw [(hsame q).2] at hqm
      exact ih hp hq hpm hqm

/-- The guard of the decrement holds wherever it is tested. -/
theorem active_pos (h : (single T).Reachable s) {p : T} (hp : (s.thread p).pc = .leave) :
    0 < s.data.active := by
  have hle := Finset.single_le_sum (f := fun p => (s.thread p).pc.counted)
    (fun p _ => (s.thread p).pc.counted_nonneg) (Finset.mem_univ p)
  rw [active_eq h]
  rw [hp] at hle
  exact hle

/-- **Shared counter**: `active` is the number of processes in the stage, they
    choose their text by it, and it ends at zero. -/
theorem shared_counter (T : Type*) [Fintype T] [DecidableEq T] (s : State T)
    (h : (single T).Reachable s) :
    (0 < s.sem .g_sem →
      s.data.active = (Finset.univ.filter fun p => (s.thread p).pc.InStage).card) ∧
    (∀ p a s', (single T).step s (.act p a) s' → (s.thread p).pc = .choose →
      ((s'.thread p).msg = some .hello ↔ ∀ q, q ≠ p → ¬ (s.thread q).pc.InStage)) ∧
    (∀ p q, (s.thread p).pc.InStage → (s.thread q).pc.InStage →
      (s.thread p).msg = some .hello → (s.thread q).msg = some .hello → p = q) ∧
    (∀ p, (s.thread p).pc = .leave → 0 < s.data.active) ∧
    ((∀ p, (s.thread p).pc = .unstarted ∨ (s.thread p).pc = .exited) →
      s.data.active = 0 ∧ s.sem .g_sem = 1) := by
  refine ⟨?_, ?_, ?_, fun p hp => active_pos h hp, ?_⟩
  · intro hfree
    have hmutex := mutex h
    have hinside : ∀ p, (s.thread p).pc.inside = 0 := by
      intro p
      have hle := Finset.single_le_sum (f := fun p => (s.thread p).pc.inside)
        (fun p _ => (s.thread p).pc.inside_nonneg) (Finset.mem_univ p)
      have hnonneg := (s.thread p).pc.inside_nonneg
      omega
    rw [active_eq h, Finset.card_filter]
    push_cast
    apply Finset.sum_congr rfl
    intro p _
    unfold Pc.counted
    simp only [Pc.counted_iff (hinside p)]
  · intro p a s' hstep hp
    rw [← active_eq_zero_iff h hp, choose_of_step hstep hp]
    simp only [choose, Option.some.injEq, ite_eq_left_iff, reduceCtorEq, imp_false, not_not]
  · intro p q hp hq
    exact hello_unique h (.inr (.inl hp)) (.inr (.inl hq))
  · intro hall
    have houtside : ∀ p, (s.thread p).pc.inside = 0 ∧ (s.thread p).pc.counted = 0 := by
      intro p
      rcases hall p with hp | hp <;>
      · rw [hp]
        exact ⟨rfl, rfl⟩
    have hmutex := mutex h
    have hactive := active_eq h
    simp only [houtside, Finset.sum_const_zero] at hmutex hactive
    exact ⟨hactive, by omega⟩

/-- From the start to the first critical section. -/
def enterRun (p : Bool) : List (Event Bool Answer) :=
  [.act p .ok, .act p .ok, .act p .ok, .act p .ok, .act p .ok, .act p .ok, .run p]

/-- One process prints and has got its `SIGINT`, the other one is about to choose. -/
def pairRun : List (Event Bool Answer) :=
  enterRun false ++ [.act false .ok, .run false, .signal false] ++ enterRun true

theorem shared_counter_pair : ∃ s : State Bool, (single Bool).Reachable s ∧
    ((s.thread false).msg = some .hello ∧ (s.thread true).pc = .choose) ∧
    (0 < s.sem .g_sem →
      s.data.active = (Finset.univ.filter fun p => (s.thread p).pc.InStage).card) ∧
    (∀ p a s', (single Bool).step s (.act p a) s' → (s.thread p).pc = .choose →
      ((s'.thread p).msg = some .hello ↔ ∀ q, q ≠ p → ¬ (s.thread q).pc.InStage)) ∧
    (∀ p q, (s.thread p).pc.InStage → (s.thread q).pc.InStage →
      (s.thread p).msg = some .hello → (s.thread q).msg = some .hello → p = q) ∧
    (∀ p, (s.thread p).pc = .leave → 0 < s.data.active) ∧
    ((∀ p, (s.thread p).pc = .unstarted ∨ (s.thread p).pc = .exited) →
      s.data.active = 0 ∧ s.sem .g_sem = 1) := by
  have hrun : (replay (procs Bool) (init Bool) pairRun).map
      (fun s => ((s.thread false).msg, (s.thread true).pc)) = some (some .hello, .choose) := by
    decide +kernel
  obtain ⟨s, hreplay, heq⟩ := Option.map_eq_some_iff.mp hrun
  have hreach : (single Bool).Reachable s := (Run.of_replay hreplay).reachable (.init rfl)
  exact ⟨s, hreach, Prod.mk.inj heq, shared_counter Bool s hreach⟩

end Single
