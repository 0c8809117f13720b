import OsLessons.Lib.Processes

/-! # Forking children and joining them

  A program that prints some texts, forks `n` children that print one text each
  and exit, waits `n` times and prints a last text. A `fork` that fails ends it
  at once.

  What the opening texts leave in the buffer (`held`) is copied into every
  child, and each process writes its own copy: `out_of_quiet` gives all of the
  output, up to the order in which the children come.
-/

namespace Processes

open Lts

structure ForkJoin (Text : Type) where
  /-- the number of children -/
  n : ℕ
  opening : List Text
  /-- the text of child `i`, which may depend on its parent -/
  line : ℕ → Option ℕ → Text
  /-- the children call `fflush` -/
  flushes : Bool
  closing : Text

namespace ForkJoin

/-- Local states: of the parent, and of a child. -/
inductive Pc (Text : Type) where
  | opening (t : Text) (ts : List Text)
  | forking (i : ℕ)
  | waiting (i : ℕ)
  | closing
  | last
  | failed
  | child (i : ℕ)
  | printed (i : ℕ)
  | flushed

variable {Text : Type} (f : ForkJoin Text)

/-- The loop that waits, before its round `i`. -/
def afterWait (i : ℕ) : Pc Text := if i < f.n then .waiting i else .closing

/-- The loop that forks, before its round `i`. -/
def afterFork (i : ℕ) : Pc Text := if i < f.n then .forking i else f.afterWait 0

def afterOpening : List Text → Pc Text
  | [] => f.afterFork 0
  | t :: ts => .opening t ts

def op : Pc Text → Op (Pc Text) Text
  | .opening t ts => .print (fun _ _ => t) (f.afterOpening ts)
  | .forking i => .fork (.child i) (f.afterFork (i + 1)) .failed
  | .waiting i => .wait (f.afterWait (i + 1))
  | .closing => .print (fun _ _ => f.closing) .last
  | .last => .exit 0
  | .failed => .exit 1
  | .child i => .print (fun _ parent => f.line i parent) (.printed i)
  | .printed _ => if f.flushes then .fflush .flushed else .exit 0
  | .flushed => .exit 0

def program : Program (Pc Text) Text := ⟨f.afterOpening f.opening, f.op⟩

/-! ### The output -/

/-- Print some texts: what is left in the buffer, and what is written. -/
def puts (atOnce : Text → Bool) (buf : List Text) : List Text → List Text × List Text
  | [] => (buf, [])
  | t :: ts =>
      let r := put atOnce buf t
      let r' := puts atOnce r.1 ts
      (r'.1, r.2 ++ r'.2)

variable (atOnce : Text → Bool)

/-- What the opening texts leave in the buffer. -/
def held : List Text := (puts atOnce [] f.opening).1

/-- What is written before the first `fork`. -/
def written : List Text := (puts atOnce [] f.opening).2

/-- A process writes what it has in its buffer: child `i`, or the parent, with
    or without its closing text. -/
inductive Event where
  | child (i : ℕ) (parent : Option ℕ)
  | parent (closed : Bool)
  deriving DecidableEq

def chunk : Event → List Text
  | .child i parent => f.held atOnce ++ [f.line i parent]
  | .parent true => f.held atOnce ++ [f.closing]
  | .parent false => f.held atOnce

/-- The children that have written. -/
def ids (es : List Event) : List ℕ :=
  es.filterMap fun
    | .child i _ => some i
    | .parent _ => none

@[simp] theorem ids_nil : ids [] = [] := rfl
@[simp] theorem ids_append (es es' : List Event) : ids (es ++ es') = ids es ++ ids es' :=
  List.filterMap_append ..
@[simp] theorem ids_child (i : ℕ) (parent : Option ℕ) : ids [.child i parent] = [i] := rfl
@[simp] theorem ids_parent (closed : Bool) : ids [.parent closed] = [] := rfl

/-! ### The invariant -/

/-- Child `i` after the events `es`: it writes exactly once. -/
def KidOk (i : ℕ) (kid : Process (Pc Text) Text) (es : List Event) : Prop :=
  match kid.status with
  | .running (.child j) => j = i ∧ kid.buf = f.held atOnce ∧ i ∉ ids es
  | .running (.printed j) =>
      j = i ∧ (i ∉ ids es ∧ (∃ parent, kid.buf = f.held atOnce ++ [f.line i parent] ∧
          (kid.parent = some 0 → parent = some 0)) ∨
        i ∈ ids es ∧ kid.buf = [])
  | .running .flushed => i ∈ ids es ∧ kid.buf = []
  | .running _ => False
  | .exited code | .reaped code => code = 0 ∧ i ∈ ids es ∧ kid.buf = []

/-- It has been waited for. -/
def isReaped (kid : Process (Pc Text) Text) : Bool :=
  match kid.status with
  | .reaped _ => true
  | _ => false

/-- The parent still runs: nobody has lost it, and it has written nothing. -/
structure Alive (kids : List (Process (Pc Text) Text)) (es : List Event) : Prop where
  parent : ∀ kid ∈ kids, kid.parent = some 0
  events : ∀ e ∈ es, ∃ i, e = .child i (some 0)

/-- All children have been forked and waited for. -/
structure Joined (kids : List (Process (Pc Text) Text)) : Prop where
  length : kids.length = f.n
  reaped : ∀ kid ∈ kids, isReaped kid

/-- The parent with the children `kids`, after the events `es`; `out` is all
    that has been written. -/
def RootOk (root : Process (Pc Text) Text) (kids : List (Process (Pc Text) Text))
    (es : List Event) : Prop :=
  match root.status with
  | .running (.forking k) =>
      k < f.n ∧ kids.length = k ∧ kids.countP isReaped = 0 ∧ root.buf = f.held atOnce ∧
        Alive kids es
  | .running (.waiting k) =>
      k < f.n ∧ kids.length = f.n ∧ kids.countP isReaped = k ∧ root.buf = f.held atOnce ∧
        Alive kids es
  | .running .closing => f.Joined kids ∧ root.buf = f.held atOnce ∧ Alive kids es
  | .running .last => f.Joined kids ∧
      (root.buf = f.held atOnce ++ [f.closing] ∧ Alive kids es ∨
        root.buf = [] ∧ ∃ es₀, es = es₀ ++ [.parent true] ∧ Alive kids es₀)
  | .running .failed => kids.length < f.n ∧ root.buf = f.held atOnce ∧ Alive kids es
  | .exited 0 => f.Joined kids ∧ root.buf = [] ∧
      ∃ es₀, es = es₀ ++ [.parent true] ∧ ∀ e ∈ es₀, ∃ i, e = .child i (some 0)
  | .exited 1 => kids.length < f.n ∧ root.buf = [] ∧ es.count (.parent false) = 1 ∧
      .parent true ∉ es
  | _ => False

/-- The processes once the opening texts are printed. -/
structure Forked (c : Config (Pc Text) Text) (root : Process (Pc Text) Text)
    (kids : List (Process (Pc Text) Text)) (es : List Event) : Prop where
  procs : c.procs = root :: kids
  rootParent : root.parent = none
  parents : ∀ kid ∈ kids, kid.parent = some 0 ∨ kid.parent = none
  out : c.out = f.written atOnce ++ es.flatMap (f.chunk atOnce)
  nodup : (ids es).Nodup
  bound : ∀ i ∈ ids es, i < kids.length
  kid : ∀ i kid, kids[i]? = some kid → f.KidOk atOnce i kid es
  root : f.RootOk atOnce root kids es

/-- The parent is still printing, or all processes are in order. -/
def Inv (c : Config (Pc Text) Text) : Prop :=
  (∃ t ts buf, c.procs = [⟨none, buf, .running (.opening t ts)⟩] ∧
    (puts atOnce buf (t :: ts)).1 = f.held atOnce ∧
    c.out ++ (puts atOnce buf (t :: ts)).2 = f.written atOnce) ∨
  ∃ root kids es, f.Forked atOnce c root kids es

variable {f atOnce} {c c' : Config (Pc Text) Text} {root kid kid' : Process (Pc Text) Text}
  {kids : List (Process (Pc Text) Text)} {es es' : List Event} {i : ℕ}

/-! ### Steps of a child -/

/-- Whether child `i` is in order depends on the events only through its own. -/
theorem KidOk.congr (h : f.KidOk atOnce i kid es) (hes : i ∈ ids es' ↔ i ∈ ids es) :
    f.KidOk atOnce i kid es' := by
  obtain ⟨parent, buf, status⟩ := kid
  cases status with
  | running s => cases s <;> simp only [KidOk, hes] at h ⊢ <;> exact h
  | exited code => simpa only [KidOk, hes] using h
  | reaped code => simpa only [KidOk, hes] using h

/-- The events after a step of child `i`: those before and possibly its own. -/
def Extends (kid : Process (Pc Text) Text) (i : ℕ) (es es' : List Event) : Prop :=
  es' = es ∨ ∃ parent, es' = es ++ [.child i parent] ∧ i ∉ ids es ∧
    (kid.parent = some 0 → parent = some 0)

theorem Extends.ids (h : Extends kid i es es') {j : ℕ} (hj : j ≠ i) :
    j ∈ ids es' ↔ j ∈ ids es := by
  rcases h with rfl | ⟨parent, rfl, -, -⟩
  · rfl
  · simp [hj]

theorem alive_nil : Alive ([] : List (Process (Pc Text) Text)) [] := ⟨by simp, by simp⟩

theorem Alive.extends (h : Alive kids es) (hes : Extends kid i es es')
    (hk : kids[i]? = some kid) (hparent : kid'.parent = kid.parent) :
    Alive (kids.set i kid') es' where
  parent k hmem := by
    rcases List.mem_or_eq_of_mem_set hmem with hmem | rfl
    · exact h.parent k hmem
    · rw [hparent]
      exact h.parent kid (List.mem_of_getElem? hk)
  events e he := by
    rcases hes with rfl | ⟨parent, rfl, -, hp⟩
    · exact h.events e he
    · rcases List.mem_append.mp he with he | he
      · exact h.events e he
      · have hzero := hp (h.parent kid (List.mem_of_getElem? hk))
        subst hzero
        exact ⟨i, by simpa using he⟩

/-- A child that has not been waited for keeps the parent from being done. -/
theorem Joined.false (h : f.Joined kids) (hk : kids[i]? = some kid) (hrun : ¬ isReaped kid) :
    False :=
  hrun (h.reaped kid (List.mem_of_getElem? hk))

theorem RootOk.kid_step (h : f.RootOk atOnce root kids es) (hk : kids[i]? = some kid)
    (hrun : ¬ isReaped kid) (hrun' : ¬ isReaped kid') (hparent : kid'.parent = kid.parent)
    (hes : Extends kid i es es') : f.RootOk atOnce root (kids.set i kid') es' := by
  have hcount : (kids.set i kid').countP isReaped = kids.countP isReaped := by
    obtain ⟨hlt, hget⟩ := List.getElem?_eq_some_iff.mp hk
    rw [List.countP_set hlt, hget, if_neg hrun, if_neg hrun']
    rfl
  obtain ⟨parent, buf, status⟩ := root
  match status with
  | .running (.forking k) =>
    obtain ⟨hlt, hlen, hzero, hbuf, halive⟩ := h
    exact ⟨hlt, by rw [List.length_set, hlen], by rw [hcount, hzero], hbuf,
      halive.extends hes hk hparent⟩
  | .running (.waiting k) =>
    obtain ⟨hlt, hlen, hwaited, hbuf, halive⟩ := h
    exact ⟨hlt, by rw [List.length_set, hlen], by rw [hcount, hwaited], hbuf,
      halive.extends hes hk hparent⟩
  | .running .closing => exact (h.1.false hk hrun).elim
  | .running .last => exact (h.1.false hk hrun).elim
  | .running .failed =>
    obtain ⟨hlt, hbuf, halive⟩ := h
    exact ⟨by rwa [List.length_set], hbuf, halive.extends hes hk hparent⟩
  | .exited 0 => exact (h.1.false hk hrun).elim
  | .exited 1 =>
    obtain ⟨hlt, hbuf, hcount, hnot⟩ := h
    refine ⟨by rwa [List.length_set], hbuf, ?_, ?_⟩
    · rcases hes with rfl | ⟨parent, rfl, -, -⟩
      · exact hcount
      · rw [List.count_append, hcount]
        rfl
    · rcases hes with rfl | ⟨parent, rfl, -, -⟩
      · exact hnot
      · simpa using hnot

/-- A step of child `i` that writes `text`, or nothing. -/
theorem Forked.kid_step (h : f.Forked atOnce c root kids es) (kid' : Process (Pc Text) Text)
    (hk : kids[i]? = some kid) (hrun : ¬ isReaped kid) (hrun' : ¬ isReaped kid') (hparent : kid'.parent = kid.parent)
    (hes : Extends kid i es es') (hkid : f.KidOk atOnce i kid' es') {text : List Text}
    (htext : es'.flatMap (f.chunk atOnce) = es.flatMap (f.chunk atOnce) ++ text) :
    f.Forked atOnce ⟨root :: kids.set i kid', c.out ++ text⟩ root (kids.set i kid') es' where
  procs := rfl
  rootParent := h.rootParent
  parents k hmem := by
    rcases List.mem_or_eq_of_mem_set hmem with hmem | rfl
    · exact h.parents k hmem
    · rw [hparent]
      exact h.parents kid (List.mem_of_getElem? hk)
  out := by rw [htext, ← List.append_assoc, h.out]
  nodup := by
    rcases hes with rfl | ⟨parent, rfl, hnew, -⟩
    · exact h.nodup
    · rw [ids_append, ids_child, List.nodup_append]
      exact ⟨h.nodup, List.nodup_singleton i, fun a ha b hb heq => by
        rw [List.mem_singleton.mp hb] at heq
        exact hnew (heq ▸ ha)⟩
  bound j hj := by
    rw [List.length_set]
    by_cases hji : j = i
    · rw [hji]
      exact (List.getElem?_eq_some_iff.mp hk).1
    · exact h.bound j ((hes.ids hji).mp hj)
  kid j k hj := by
    rw [List.getElem?_set] at hj
    split at hj
    · next heq =>
      subst heq
      split at hj
      · cases hj
        exact hkid
      · cases hj
    · next hne => exact (h.kid j k hj).congr (hes.ids (Ne.symm hne))
  root := h.root.kid_step hk hrun hrun' hparent hes

/-- Child `i` writes its buffer, or has nothing to write. -/
theorem Forked.kid_flush (h : f.Forked atOnce c root kids es) {parent : Option ℕ}
    {buf : List Text} {s : Pc Text} (hk : kids[i]? = some ⟨parent, buf, .running s⟩)
    (hbuf : (i ∉ ids es ∧ ∃ par, buf = f.held atOnce ++ [f.line i par] ∧
        (parent = some 0 → par = some 0)) ∨ i ∈ ids es ∧ buf = [])
    {status : Status (Pc Text)} (hstatus : status = .running .flushed ∨ status = .exited 0) :
    ∃ es', f.Forked atOnce ⟨root :: kids.set i ⟨parent, [], status⟩, c.out ++ buf⟩ root
      (kids.set i ⟨parent, [], status⟩) es' := by
  have hnot : ¬ isReaped (⟨parent, [], status⟩ : Process (Pc Text) Text) := by
    rcases hstatus with rfl | rfl
    · exact Bool.false_ne_true
    · exact Bool.false_ne_true
  have hkid : ∀ es', i ∈ ids es' → f.KidOk atOnce i ⟨parent, [], status⟩ es' := by
    intro es' hmem
    rcases hstatus with rfl | rfl
    · exact ⟨hmem, rfl⟩
    · exact ⟨rfl, hmem, rfl⟩
  rcases hbuf with ⟨hnew, par, rfl, hpar⟩ | ⟨hold, rfl⟩
  -- its own text, behind its copy of what the parent held
  · refine ⟨es ++ [.child i par], h.kid_step ⟨parent, [], status⟩ hk Bool.false_ne_true hnot rfl
      (.inr ⟨par, rfl, hnew, hpar⟩) (hkid _ (by simp)) ?_⟩
    rw [List.flatMap_append, List.flatMap_singleton]
    rfl
  · exact ⟨es, h.kid_step ⟨parent, [], status⟩ hk Bool.false_ne_true hnot rfl (.inl rfl) (hkid _ hold) (by simp)⟩

/-- A child has no children of its own. -/
theorem Forked.orphan_kid (h : f.Forked atOnce c root kids es) :
    (root :: kids).map (orphan (i + 1)) = root :: kids := by
  have hself : ∀ pr ∈ root :: kids, orphan (i + 1) pr = pr := by
    intro pr hmem
    have hne : pr.parent ≠ some (i + 1) := by
      rcases List.mem_cons.mp hmem with rfl | hmem
      · rw [h.rootParent]
        exact (Option.some_ne_none _).symm
      · rcases h.parents pr hmem with hp | hp
        · rw [hp]
          simp
        · rw [hp]
          simp
    rw [orphan, if_neg hne]
  exact (List.map_congr_left hself).trans (List.map_id _)

theorem Forked.kid_after (h : f.Forked atOnce c root kids es) {parent : Option ℕ}
    {buf : List Text} {s : Pc Text} (hk : kids[i]? = some ⟨parent, buf, .running s⟩)
    (hafter : After atOnce c (i + 1) parent buf (f.op s) c') :
    ∃ kids' es', f.Forked atOnce c' root kids' es' := by
  have hok := h.kid i _ hk
  have hset : ∀ kid', c.procs.set (i + 1) kid' = root :: kids.set i kid' := by
    intro kid'
    rw [h.procs]
    rfl
  cases s with
  | child j =>
    obtain ⟨rfl, hbuf, hnew⟩ := hok
    change c' = _ at hafter
    rw [hset] at hafter
    by_cases honce : atOnce (f.line j parent)
    · have hput : put atOnce buf (f.line j parent) = ([], f.held atOnce ++ [f.line j parent]) := by
        rw [put, if_pos honce]
        exact congrArg (fun b => ([], b ++ _)) hbuf
      rw [hput] at hafter
      subst hafter
      have hmem : j ∈ ids (es ++ [.child j parent]) := by simp
      refine ⟨_, _, h.kid_step ⟨parent, [], .running (.printed j)⟩ hk Bool.false_ne_true
        Bool.false_ne_true rfl (.inr ⟨parent, rfl, hnew, id⟩) ⟨rfl, .inr ⟨hmem, rfl⟩⟩ ?_⟩
      rw [List.flatMap_append, List.flatMap_singleton]
      rfl
    · have hput : put atOnce buf (f.line j parent) = (f.held atOnce ++ [f.line j parent], []) := by
        rw [put, if_neg honce]
        exact congrArg (fun b => (b ++ _, [])) hbuf
      rw [hput] at hafter
      subst hafter
      exact ⟨_, _, h.kid_step ⟨parent, _, .running (.printed j)⟩ hk Bool.false_ne_true
        Bool.false_ne_true rfl (.inl rfl) ⟨rfl, .inl ⟨hnew, parent, rfl, id⟩⟩ (by simp)⟩
  | printed j =>
    obtain ⟨rfl, hbuf⟩ := hok
    have hcases : (j ∉ ids es ∧ ∃ par, buf = f.held atOnce ++ [f.line j par] ∧
        (parent = some 0 → par = some 0)) ∨ j ∈ ids es ∧ buf = [] := hbuf
    by_cases hfl : f.flushes
    · have hop : f.op (.printed j) = .fflush .flushed := if_pos hfl
      rw [hop] at hafter
      change c' = _ at hafter
      rw [hset] at hafter
      subst hafter
      exact ⟨_, h.kid_flush hk hcases (.inl rfl)⟩
    · have hop : f.op (.printed j) = .exit 0 := if_neg hfl
      rw [hop] at hafter
      change c' = _ at hafter
      obtain ⟨es', hes'⟩ := h.kid_flush hk hcases (.inr rfl)
      rw [hset, hes'.orphan_kid] at hafter
      subst hafter
      exact ⟨_, es', hes'⟩
  | flushed =>
    change c' = _ at hafter
    obtain ⟨es', hes'⟩ := h.kid_flush hk (.inr hok) (.inr rfl)
    rw [hset, hes'.orphan_kid] at hafter
    subst hafter
    exact ⟨_, es', hes'⟩
  | opening t ts => exact hok.elim
  | forking k => exact hok.elim
  | waiting k => exact hok.elim
  | closing => exact hok.elim
  | last => exact hok.elim
  | failed => exact hok.elim

/-! ### Steps of the parent -/

theorem rootOk_afterWait {k : ℕ} (hk : k ≤ f.n) (hlen : kids.length = f.n)
    (hcount : kids.countP isReaped = k) (halive : Alive kids es) :
    f.RootOk atOnce ⟨none, f.held atOnce, .running (f.afterWait k)⟩ kids es := by
  rw [afterWait]
  split
  · next hlt => exact ⟨hlt, hlen, hcount, rfl, halive⟩
  · next hge =>
    have hall : kids.countP isReaped = kids.length := by omega
    exact ⟨⟨hlen, List.countP_eq_length.mp hall⟩, rfl, halive⟩

theorem rootOk_afterFork (hk : kids.length ≤ f.n) (hcount : kids.countP isReaped = 0)
    (halive : Alive kids es) :
    f.RootOk atOnce ⟨none, f.held atOnce, .running (f.afterFork kids.length)⟩ kids es := by
  rw [afterFork]
  split
  · next hlt => exact ⟨hlt, rfl, hcount, rfl, halive⟩
  · next hge =>
    have hlen : kids.length = f.n := by omega
    have hzero : 0 ≤ f.n := Nat.zero_le _
    exact rootOk_afterWait hzero hlen hcount halive

/-- The parent goes on, without a change of the children. -/
theorem Forked.root_step (h : f.Forked atOnce c root kids es) (root' : Process (Pc Text) Text)
    (hparent : root'.parent = none) (hroot : f.RootOk atOnce root' kids es) :
    f.Forked atOnce ⟨root' :: kids, c.out⟩ root' kids es :=
  ⟨rfl, hparent, h.parents, h.out, h.nodup, h.bound, h.kid, hroot⟩

/-- The parent writes, with or without its closing text. -/
theorem Forked.root_write (h : f.Forked atOnce c root kids es) (root' : Process (Pc Text) Text)
    (hparent : root'.parent = none) (closed : Bool)
    (hroot : f.RootOk atOnce root' kids (es ++ [.parent closed])) :
    f.Forked atOnce ⟨root' :: kids, c.out ++ f.chunk atOnce (.parent closed)⟩ root' kids
      (es ++ [.parent closed]) := by
  have hids : ids (es ++ [.parent closed]) = ids es := by simp
  refine ⟨rfl, hparent, h.parents, ?_, hids ▸ h.nodup, hids ▸ h.bound, ?_, hroot⟩
  · rw [List.flatMap_append, List.flatMap_singleton, ← List.append_assoc, ← h.out]
  · intro i kid hi
    apply (h.kid i kid hi).congr
    rw [hids]

theorem KidOk.orphan (h : f.KidOk atOnce i kid es) : f.KidOk atOnce i (orphan 0 kid) es := by
  obtain ⟨parent, buf, status⟩ := kid
  rw [Processes.orphan]
  split
  · cases status with
    | running s =>
      cases s with
      | printed j =>
        obtain ⟨hj, ⟨hnew, par, hbuf, -⟩ | hold⟩ := h
        · exact ⟨hj, .inl ⟨hnew, par, hbuf, fun hnone => by cases hnone⟩⟩
        · exact ⟨hj, .inr hold⟩
      | _ => exact h
    | exited code => exact h
    | reaped code => exact h
  · exact h

theorem isReaped_orphan (p : ℕ) (kid : Process (Pc Text) Text) :
    isReaped (orphan p kid) = isReaped kid := by
  rw [orphan]
  split <;> rfl

/-- The parent exits, and its children lose it. -/
theorem Forked.root_exit (h : f.Forked atOnce c root kids es) {code : ℕ} (hcode : code ≤ 1)
    (hroot : f.RootOk atOnce ⟨none, [], .exited code⟩ kids es) :
    f.Forked atOnce ⟨(⟨none, [], .exited code⟩ :: kids).map (orphan 0), c.out⟩
      ⟨none, [], .exited code⟩ (kids.map (orphan 0)) es where
  procs := rfl
  rootParent := rfl
  parents k hmem := by
    obtain ⟨kid, hkid, rfl⟩ := List.mem_map.mp hmem
    rw [orphan]
    split
    · exact .inr rfl
    · exact h.parents kid hkid
  out := h.out
  nodup := h.nodup
  bound := by simpa using h.bound
  kid i k hi := by
    rw [List.getElem?_map, Option.map_eq_some_iff] at hi
    obtain ⟨kid, hkid, rfl⟩ := hi
    exact (h.kid i kid hkid).orphan
  root := by
    have hjoined : f.Joined kids → f.Joined (kids.map (orphan 0)) := by
      intro hj
      refine ⟨by rw [List.length_map, hj.length], ?_⟩
      intro k hmem
      obtain ⟨kid, hkid, rfl⟩ := List.mem_map.mp hmem
      rw [isReaped_orphan]
      exact hj.reaped kid hkid
    obtain rfl | rfl : code = 0 ∨ code = 1 := by omega
    · exact ⟨hjoined hroot.1, hroot.2⟩
    · obtain ⟨hlt, hrest⟩ := hroot
      exact ⟨by rwa [List.length_map], hrest⟩

theorem Alive.no_parent (h : Alive kids es) (closed : Bool) : Event.parent closed ∉ es := by
  intro hmem
  obtain ⟨i, heq⟩ := h.events _ hmem
  cases heq

/-- Child `i` has been waited for. -/
theorem Forked.kid_reap (h : f.Forked atOnce c root kids es) {buf : List Text} {code : ℕ}
    (hk : kids[i]? = some ⟨some 0, buf, .exited code⟩) (root' : Process (Pc Text) Text)
    (hparent : root'.parent = none)
    (hroot : f.RootOk atOnce root' (kids.set i ⟨some 0, buf, .reaped code⟩) es) :
    f.Forked atOnce ⟨root' :: kids.set i ⟨some 0, buf, .reaped code⟩, c.out⟩ root'
      (kids.set i ⟨some 0, buf, .reaped code⟩) es := by
  refine ⟨rfl, hparent, ?_, h.out, h.nodup, ?_, ?_, hroot⟩
  · intro kid hmem
    rcases List.mem_or_eq_of_mem_set hmem with hmem | rfl
    · exact h.parents kid hmem
    · exact .inl rfl
  · intro j hj
    rw [List.length_set]
    exact h.bound j hj
  · intro j kid hj
    rw [List.getElem?_set] at hj
    split at hj
    · next heq =>
      subst heq
      split at hj
      · cases hj
        have hok := h.kid i ⟨some 0, buf, .exited code⟩ hk
        exact hok
      · cases hj
    · exact h.kid j kid hj

theorem Forked.set_root (h : f.Forked atOnce c root kids es) (root' : Process (Pc Text) Text) :
    c.procs.set 0 root' = root' :: kids := by
  rw [h.procs]
  rfl

/-- A child that has just been forked. -/
def newborn (f : ForkJoin Text) (atOnce : Text → Bool) (i : ℕ) : Process (Pc Text) Text :=
  ⟨some 0, f.held atOnce, .running (.child i)⟩

/-- One child more. -/
theorem Forked.spawn (h : f.Forked atOnce c root kids es) (hlt : kids.length < f.n)
    (hzero : kids.countP isReaped = 0) (halive : Alive kids es) :
    f.Forked atOnce
      ⟨⟨none, f.held atOnce, .running (f.afterFork (kids.length + 1))⟩ ::
        (kids ++ [f.newborn atOnce kids.length]), c.out⟩
      ⟨none, f.held atOnce, .running (f.afterFork (kids.length + 1))⟩
      (kids ++ [f.newborn atOnce kids.length]) es := by
  have halive' : Alive (kids ++ [f.newborn atOnce kids.length]) es := by
    refine ⟨?_, halive.events⟩
    intro kid hmem
    rcases List.mem_append.mp hmem with hmem | hmem
    · exact halive.parent kid hmem
    · rw [List.mem_singleton.mp hmem]
      rfl
  refine ⟨rfl, rfl, fun kid hmem => .inl (halive'.parent kid hmem), h.out, h.nodup, ?_, ?_, ?_⟩
  · intro i hi
    have hlt := h.bound i hi
    rw [List.length_append]
    omega
  · intro i kid hi
    rw [List.getElem?_append] at hi
    split at hi
    · exact h.kid i kid hi
    · next hge =>
      obtain ⟨hlt', rfl⟩ := List.getElem?_eq_some_iff.mp hi
      have hi' : i = kids.length := by simp at hlt'; omega
      subst hi'
      have hfresh : kids.length ∉ ids es := fun hmem => (h.bound _ hmem).false
      simp only [Nat.sub_self, List.getElem_cons_zero]
      exact ⟨rfl, rfl, hfresh⟩
  · have hlen : kids.length + 1 = (kids ++ [f.newborn atOnce kids.length]).length := by simp
    rw [hlen]
    apply rootOk_afterFork ?_ ?_ halive'
    · omega
    · rw [List.countP_append, hzero]
      rfl

section root
variable {buf : List Text}

theorem Forked.forking_after {k : ℕ}
    (h : f.Forked atOnce c ⟨none, buf, .running (.forking k)⟩ kids es)
    (hafter : After atOnce c 0 none buf (f.op (.forking k)) c') :
    ∃ root' kids' es', f.Forked atOnce c' root' kids' es' := by
  obtain ⟨hlt, rfl, hzero, hbuf, halive⟩ := h.root
  change buf = f.held atOnce at hbuf
  subst hbuf
  change c' = _ ∨ c' = _ at hafter
  rw [h.set_root, h.set_root] at hafter
  rcases hafter with rfl | rfl
  · exact ⟨_, _, es, h.spawn hlt hzero halive⟩
  · exact ⟨_, kids, es, h.root_step ⟨none, f.held atOnce, .running .failed⟩ rfl
      ⟨hlt, rfl, halive⟩⟩

/-- Where `wait` finds nobody, all children have been waited for. -/
theorem Alive.all_reaped (halive : Alive kids es)
    (hnone : ∀ kid ∈ kids, ¬ kid.awaits 0) : kids.countP isReaped = kids.length := by
  rw [List.countP_eq_length]
  intro kid hmem
  have hno := hnone kid hmem
  have hp := halive.parent kid hmem
  obtain ⟨parent, buf, status⟩ := kid
  change parent = some 0 at hp
  cases status with
  | reaped code => rfl
  | running s => simp [Process.awaits, hp] at hno
  | exited code => simp [Process.awaits, hp] at hno

theorem Forked.waiting_after {k : ℕ}
    (h : f.Forked atOnce c ⟨none, buf, .running (.waiting k)⟩ kids es)
    (hafter : After atOnce c 0 none buf (f.op (.waiting k)) c') :
    ∃ root' kids' es', f.Forked atOnce c' root' kids' es' := by
  obtain ⟨hlt, hlen, hcount, hbuf, halive⟩ := h.root
  change buf = f.held atOnce at hbuf
  subst hbuf
  rcases hafter with ⟨hnone, -⟩ | ⟨q, buf', code, hq, hafter⟩
  · have hall : kids.countP isReaped = kids.length := by
      refine halive.all_reaped fun kid hmem => hnone kid ?_
      rw [h.procs]
      exact List.mem_cons_of_mem _ hmem
    omega
  · rw [h.procs] at hq hafter
    cases q with
    | zero => cases hq
    | succ i =>
      change kids[i]? = _ at hq
      change c' = ⟨_ :: kids.set i ⟨some 0, buf', .reaped code⟩, c.out⟩ at hafter
      subst hafter
      have hcount' : (kids.set i ⟨some 0, buf', .reaped code⟩).countP isReaped = k + 1 := by
        obtain ⟨hi, hget⟩ := List.getElem?_eq_some_iff.mp hq
        rw [List.countP_set hi, hget, hcount]
        rfl
      exact ⟨_, _, es, h.kid_reap hq _ rfl
        (rootOk_afterWait hlt (by rw [List.length_set, hlen]) hcount'
          (halive.extends (.inl rfl) hq rfl))⟩

/-- The closing text goes out, or into the buffer. -/
theorem Forked.closing_after (h : f.Forked atOnce c ⟨none, buf, .running .closing⟩ kids es)
    (hafter : After atOnce c 0 none buf (f.op .closing) c') :
    ∃ root' kids' es', f.Forked atOnce c' root' kids' es' := by
  obtain ⟨hjoined, hbuf, halive⟩ := h.root
  change buf = f.held atOnce at hbuf
  subst hbuf
  change c' = _ at hafter
  rw [h.set_root] at hafter
  by_cases honce : atOnce f.closing
  · rw [put, if_pos honce] at hafter
    subst hafter
    exact ⟨_, kids, _, h.root_write ⟨none, [], .running .last⟩ rfl true
      ⟨hjoined, .inr ⟨rfl, es, rfl, halive⟩⟩⟩
  · rw [put, if_neg honce, List.append_nil] at hafter
    subst hafter
    exact ⟨_, kids, es, h.root_step ⟨none, f.held atOnce ++ [f.closing], .running .last⟩ rfl
      ⟨hjoined, .inl ⟨rfl, halive⟩⟩⟩

theorem Forked.last_after (h : f.Forked atOnce c ⟨none, buf, .running .last⟩ kids es)
    (hafter : After atOnce c 0 none buf (f.op .last) c') :
    ∃ root' kids' es', f.Forked atOnce c' root' kids' es' := by
  obtain ⟨hjoined, hbuf⟩ := h.root
  change c' = _ at hafter
  rw [h.set_root] at hafter
  subst hafter
  rcases hbuf with ⟨rfl, halive⟩ | ⟨rfl, es₀, rfl, halive⟩
  · have hwritten := h.root_write ⟨none, [], .exited 0⟩ rfl true
      ⟨hjoined, rfl, es, rfl, halive.events⟩
    exact ⟨_, _, _, hwritten.root_exit (Nat.zero_le 1) hwritten.root⟩
  · have hsilent := h.root_step ⟨none, [], .exited 0⟩ rfl
      ⟨hjoined, rfl, es₀, rfl, halive.events⟩
    rw [List.append_nil]
    exact ⟨_, _, _, hsilent.root_exit (Nat.zero_le 1) hsilent.root⟩

theorem Forked.failed_after (h : f.Forked atOnce c ⟨none, buf, .running .failed⟩ kids es)
    (hafter : After atOnce c 0 none buf (f.op .failed) c') :
    ∃ root' kids' es', f.Forked atOnce c' root' kids' es' := by
  obtain ⟨hlt, hbuf, halive⟩ := h.root
  change buf = f.held atOnce at hbuf
  subst hbuf
  change c' = _ at hafter
  rw [h.set_root] at hafter
  subst hafter
  have hcount : (es ++ [Event.parent false]).count (.parent false) = 1 := by
    rw [List.count_append, List.count_eq_zero.mpr (halive.no_parent false)]
    rfl
  have hnot : Event.parent true ∉ es ++ [.parent false] := by
    simpa using halive.no_parent true
  have hwritten := h.root_write ⟨none, [], .exited 1⟩ rfl false ⟨hlt, rfl, hcount, hnot⟩
  exact ⟨_, _, _, hwritten.root_exit le_rfl hwritten.root⟩

end root

theorem Forked.root_after (h : f.Forked atOnce c root kids es) {parent : Option ℕ}
    {buf : List Text} {s : Pc Text} (hroot : root = ⟨parent, buf, .running s⟩)
    (hafter : After atOnce c 0 parent buf (f.op s) c') :
    ∃ root' kids' es', f.Forked atOnce c' root' kids' es' := by
  have hparent := h.rootParent
  subst hroot
  change parent = none at hparent
  subst hparent
  cases s with
  | forking k => exact h.forking_after hafter
  | waiting k => exact h.waiting_after hafter
  | closing => exact h.closing_after hafter
  | last => exact h.last_after hafter
  | failed => exact h.failed_after hafter
  | opening t ts => exact h.root.elim
  | child k => exact h.root.elim
  | printed k => exact h.root.elim
  | flushed => exact h.root.elim

/-! ### All steps -/

theorem Inv.step {l : Label} (h : f.Inv atOnce c) (hstep : Moves f.program atOnce c l c') :
    f.Inv atOnce c' := by
  obtain ⟨parent, buf, s, hp, hafter⟩ := hstep.after
  rcases h with ⟨t, ts, buf₀, hprocs, hheld, hwritten⟩ | ⟨root, kids, es, h⟩
  -- the opening texts: the parent is alone
  · rw [hprocs] at hp
    have hzero : l.actor = 0 := by simpa using (List.getElem?_eq_some_iff.mp hp).1
    rw [hzero] at hp hafter
    cases hp
    change c' = _ at hafter
    rw [hprocs] at hafter
    subst hafter
    cases ts with
    | cons t' ts => exact .inl ⟨t', ts, _, rfl, hheld, by rw [List.append_assoc]; exact hwritten⟩
    | nil =>
      have hout : c.out ++ (put atOnce buf t).2 = f.written atOnce := by
        simpa [puts] using hwritten
      have hbuf : (put atOnce buf t).1 = f.held atOnce := hheld
      refine .inr ⟨_, [], [], rfl, rfl, by simp, by simpa using hout, List.nodup_nil, by simp,
        by simp, ?_⟩
      rw [hbuf]
      exact rootOk_afterFork (Nat.zero_le _) rfl alive_nil
  · rw [h.procs] at hp
    right
    cases hl : l.actor with
    | zero =>
      rw [hl] at hp hafter
      cases hp
      exact h.root_after rfl hafter
    | succ i =>
      rw [hl] at hp hafter
      obtain ⟨kids', es', h'⟩ := h.kid_after hp hafter
      exact ⟨root, kids', es', h'⟩

theorem inv_initial : f.Inv atOnce (initial f.program) := by
  cases hopen : f.opening with
  | cons t ts =>
    have hstart : initial f.program = ⟨[⟨none, [], .running (.opening t ts)⟩], []⟩ := by
      simp [initial, program, hopen, afterOpening]
    refine .inl ⟨t, ts, [], by rw [hstart], ?_, ?_⟩
    · rw [held, hopen]
    · rw [written, hopen, hstart]
      rfl
  | nil =>
    have hstart : initial f.program = ⟨[⟨none, [], .running (f.afterFork 0)⟩], []⟩ := by
      simp [initial, program, hopen, afterOpening]
    have hheld : f.held atOnce = [] := by
      rw [held, hopen]
      rfl
    have hroot : f.RootOk atOnce ⟨none, f.held atOnce, .running (f.afterFork 0)⟩ [] [] :=
      rootOk_afterFork (Nat.zero_le _) rfl alive_nil
    rw [hheld] at hroot
    refine .inr ⟨_, [], [], by rw [hstart], rfl, by simp, ?_, List.nodup_nil, by simp, by simp,
      hroot⟩
    rw [hstart, written, hopen]
    rfl

theorem inv (h : (system f.program atOnce).Reachable c) : f.Inv atOnce c := by
  apply System.invariant ?_ ?_ h
  · intro c hc
    cases hc
    exact inv_initial
  · intro c l c' hc hstep
    exact hc.step (moves_iff.mp hstep)

/-! ### Complete runs -/

/-- The parent has exited and all children have been waited for. -/
structure Finished (c : Config (Pc Text) Text) (n : ℕ) : Prop where
  root : c.procs.head? = some ⟨none, [], .exited 0⟩
  length : c.procs.length = n + 1
  reaped : ∀ kid ∈ c.procs.tail, kid.status = .reaped 0

/-- Where no process runs, every child has written. -/
theorem Forked.ids_perm (h : f.Forked atOnce c root kids es)
    (hdone : ∀ kid ∈ kids, ∀ s, kid.status ≠ .running s) : (ids es).Perm (List.range kids.length) := by
  rw [List.perm_ext_iff_of_nodup h.nodup List.nodup_range]
  intro i
  rw [List.mem_range]
  refine ⟨h.bound i, fun hi => ?_⟩
  have hk : kids[i]? = some kids[i] := List.getElem?_eq_getElem hi
  have hok := h.kid i _ hk
  have hnot := hdone kids[i] (List.getElem_mem hi)
  generalize kids[i] = kid at hok hnot
  obtain ⟨parent, buf, status⟩ := kid
  cases status with
  | running s => exact (hnot s rfl).elim
  | exited code => exact hok.2.1
  | reaped code => exact hok.2.1

/-- Events of children that have not lost their parent. -/
theorem flatMap_children (h : ∀ e ∈ es, ∃ i, e = .child i (some 0)) :
    es.flatMap (f.chunk atOnce) =
      (ids es).flatMap fun i => f.held atOnce ++ [f.line i (some 0)] := by
  induction es with
  | nil => rfl
  | cons e es ih =>
    obtain ⟨i, rfl⟩ := h e List.mem_cons_self
    have hrest := ih fun e he => h e (List.mem_cons_of_mem _ he)
    change f.chunk atOnce (.child i (some 0)) ++ es.flatMap (f.chunk atOnce) = _
    rw [hrest]
    rfl

theorem length_events (es : List Event) :
    es.length = (ids es).length + es.count (.parent false) + es.count (.parent true) := by
  induction es with
  | nil => rfl
  | cons e es ih =>
    rw [List.length_cons, ih]
    cases e with
    | child i parent =>
      simp [ids]
      omega
    | parent closed =>
      cases closed with
      | true => simp [ids]; omega
      | false => simp [ids]; omega

/-- **All of the output** of a complete run: either every `fork` succeeded, or
    one failed and there are the children before it. -/
theorem out_of_quiet (h : (system f.program atOnce).Reachable c)
    (hquiet : ∀ l c', ¬ (system f.program atOnce).step c l c') :
    (Finished c f.n ∧ ∃ order : List ℕ, order.Perm (List.range f.n) ∧
      c.out = f.written atOnce ++
        (order.flatMap fun i => f.held atOnce ++ [f.line i (some 0)]) ++
          f.held atOnce ++ [f.closing]) ∨
    ∃ k < f.n, c.procs.length = k + 1 ∧ ∃ es, (ids es).Perm (List.range k) ∧
      es.count (.parent false) = 1 ∧ .parent true ∉ es ∧
        c.out = f.written atOnce ++ es.flatMap (f.chunk atOnce) := by
  have hstop : ∀ p (pr : Process (Pc Text) Text), c.procs[p]? = some pr →
      ∀ s, pr.status ≠ .running s := fun _ _ hp s => not_running_of_quiet h hquiet hp s
  rcases inv h with ⟨t, ts, buf, hprocs, -⟩ | ⟨root, kids, es, hf⟩
  · exact absurd rfl (hstop 0 ⟨none, buf, .running (.opening t ts)⟩ (by rw [hprocs]; rfl) _)
  · have hkids : ∀ kid ∈ kids, ∀ s, kid.status ≠ .running s := by
      intro kid hmem
      obtain ⟨i, hi⟩ := List.mem_iff_getElem?.mp hmem
      apply hstop (i + 1)
      rw [hf.procs]
      exact hi
    have hroot := hstop 0 root (by rw [hf.procs]; rfl)
    have hperm := hf.ids_perm hkids
    have hok := hf.root
    have hparent := hf.rootParent
    obtain ⟨parent, buf, status⟩ := root
    change parent = none at hparent
    subst hparent
    match status with
    | .running s => exact absurd rfl (hroot s)
    | .exited 0 =>
      obtain ⟨hjoined, hbuf, es₀, rfl, hes₀⟩ := hok
      change buf = [] at hbuf
      subst hbuf
      left
      refine ⟨⟨by rw [hf.procs]; rfl, ?_, ?_⟩, ids es₀, ?_, ?_⟩
      · rw [hf.procs, List.length_cons, hjoined.length]
      · intro kid hmem
        rw [hf.procs] at hmem
        have hreaped := hjoined.reaped kid hmem
        obtain ⟨i, hi⟩ := List.mem_iff_getElem?.mp hmem
        have hkid := hf.kid i kid hi
        obtain ⟨parent, buf, status⟩ := kid
        cases status with
        | running s => cases hreaped
        | exited code => cases hreaped
        | reaped code => exact congrArg Status.reaped hkid.1
      · simpa [hjoined.length] using hperm
      · rw [hf.out, List.flatMap_append, flatMap_children hes₀, List.flatMap_singleton, chunk]
        simp only [List.append_assoc]
    | .exited 1 =>
      obtain ⟨hlt, -, hcount, hnot⟩ := hok
      exact .inr ⟨kids.length, hlt, by rw [hf.procs, List.length_cons], es, hperm, hcount, hnot,
        hf.out⟩

/-! ### Length of the runs -/

/-- The operations that are left, with those of the children to come. -/
def weight (f : ForkJoin Text) : Pc Text → ℕ
  | .opening _ ts => ts.length + 1 + (5 * f.n + 2)
  | .forking i => 4 * max 1 (f.n - i) + f.n + 2
  | .waiting i => max 1 (f.n - i) + 2
  | .closing => 2
  | .last => 1
  | .failed => 1
  | .child _ => 3
  | .printed _ => 2
  | .flushed => 1

theorem weight_afterWait (i : ℕ) : f.weight (f.afterWait i) = f.n - i + 2 := by
  rw [afterWait]
  split
  · rw [weight]
    omega
  · rw [weight]
    omega

theorem weight_afterFork (i : ℕ) : f.weight (f.afterFork i) = 4 * (f.n - i) + f.n + 2 := by
  rw [afterFork]
  split
  · rw [weight]
    omega
  · rw [weight_afterWait]
    omega

theorem weight_afterOpening (ts : List Text) :
    f.weight (f.afterOpening ts) = ts.length + (5 * f.n + 2) := by
  cases ts with
  | nil =>
    rw [afterOpening, weight_afterFork, List.length_nil]
    omega
  | cons t ts => rfl

theorem weighs (f : ForkJoin Text) : Weighs f.program f.weight := by
  intro s
  cases s with
  | opening t ts =>
    show f.weight (f.afterOpening ts) + 1 ≤ ts.length + 1 + (5 * f.n + 2)
    rw [weight_afterOpening]
    omega
  | forking i =>
    show max (3 + f.weight (f.afterFork (i + 1))) 1 + 1 ≤ 4 * max 1 (f.n - i) + f.n + 2
    rw [weight_afterFork]
    omega
  | waiting i =>
    show f.weight (f.afterWait (i + 1)) + 1 ≤ max 1 (f.n - i) + 2
    rw [weight_afterWait]
    omega
  | printed i =>
    show (if f.flushes then Op.fflush .flushed else .exit 0 : Op (Pc Text) Text).cost f.weight ≤ 2
    split
    · exact le_rfl
    · exact Nat.le_succ 1
  | closing => exact le_rfl
  | last => exact le_rfl
  | failed => exact le_rfl
  | child i => exact le_rfl
  | flushed => exact le_rfl

/-- No run takes more than five operations for each child. -/
theorem length_le {ls : List Label} (h : (system f.program atOnce).Run (initial f.program) ls c) :
    ls.length ≤ 5 * f.n + f.opening.length + 2 := by
  have hle := run_length_le f.weighs h
  have hstart : f.weight f.program.start = f.opening.length + (5 * f.n + 2) :=
    weight_afterOpening f.opening
  omega

end ForkJoin

end Processes
