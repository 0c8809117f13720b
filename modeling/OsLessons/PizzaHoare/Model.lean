import OsLessons.Lib.MonitorRules

/-! # The kitchen monitor

  `lesson8_pizza_hoare.c`: cooks and couriers over one monitor with two
  condition variables. A critical section is one test of its `while` loop: it
  ends in `pthread_cond_wait` or goes through to the `unlock`.

  `printf` and `sleep` are left out. Counters stay within the range of `int`.
-/

namespace PizzaHoare

open Lts Monitor

/-! ### Threads and data -/

/-- The command line, and how many pizzas each cook has drawn. -/
structure Config where
  N_tables : ℕ
  P : ℕ
  K : ℕ
  pizzas_to_make : Fin P → ℕ

def Config.total_pizzas (cfg : Config) : ℕ := ∑ id, cfg.pizzas_to_make id

inductive Thread (P K : ℕ) where
  | cook (id : Fin P)
  | courier (id : Fin K)
  deriving DecidableEq

def Thread.equiv (P K : ℕ) : Thread P K ≃ Fin P ⊕ Fin K where
  toFun
    | .cook id => .inl id
    | .courier id => .inr id
  invFun
    | .inl id => .cook id
    | .inr id => .courier id
  left_inv t := by cases t <;> rfl
  right_inv t := by rcases t with _ | _ <;> rfl

instance (P K : ℕ) : Fintype (Thread P K) := Fintype.ofEquiv _ (Thread.equiv P K).symm

theorem Thread.sum_eq {P K : ℕ} (f : Thread P K → ℤ) :
    ∑ t, f t = ∑ id, f (.cook id) + ∑ id, f (.courier id) := by
  rw [← (Thread.equiv P K).symm.sum_comp, Fintype.sum_sum_type]
  simp [Thread.equiv]

abbrev Config.Thread (cfg : Config) : Type := PizzaHoare.Thread cfg.P cfg.K

inductive Cond where
  | cond_table_free
  | cond_pizza_ready
  deriving DecidableEq

/-- The counters of `Kitchen`. -/
structure Kitchen where
  free_tables : ℤ
  ready_pizzas : ℤ
  active_cooks : ℤ
  deriving DecidableEq

def kitchen_init (tables cooks : ℕ) : Kitchen where
  free_tables := tables
  ready_pizzas := 0
  active_cooks := cooks

/-! ### Cooks -/

/-- Program points of `cook_thread`; `i` is the loop index. -/
inductive CookPc where
  /-- head of the loop, or in `pthread_cond_wait` -/
  | loop (i : ℕ)
  /-- in `kitchen_start_cooking`, with the mutex -/
  | starting (i : ℕ)
  | cooking (i : ℕ)
  /-- in `kitchen_finish_cooking`, with the mutex -/
  | finishing (i : ℕ)
  /-- in `kitchen_cook_done`, with the mutex -/
  | leaving
  | returned
  deriving DecidableEq

def kitchen_start_cooking (i : ℕ) (k : Kitchen) : Leave Kitchen Cond CookPc :=
  if k.free_tables = 0 then { data := k, sleep := some .cond_table_free, next := .loop i }
  else { data := { k with free_tables := k.free_tables - 1 }, next := .cooking i }

def kitchen_finish_cooking (i : ℕ) (k : Kitchen) : Leave Kitchen Cond CookPc where
  data := { k with ready_pizzas := k.ready_pizzas + 1, free_tables := k.free_tables + 1 }
  wakes := [.signal .cond_table_free, .signal .cond_pizza_ready]
  next := .loop (i + 1)

def kitchen_cook_done (k : Kitchen) : Leave Kitchen Cond CookPc where
  data := { k with active_cooks := k.active_cooks - 1 }
  wakes := if k.active_cooks - 1 = 0 then [.broadcast .cond_pizza_ready] else []
  next := .returned

def cook_thread (pizzas_to_make : ℕ) : CookPc → Op Kitchen Cond Unit Unit CookPc
  | .loop i => if i < pizzas_to_make then .lock (.starting i) else .lock .leaving
  | .starting i => .critical (kitchen_start_cooking i)
  | .cooking i => .lock (.finishing i)
  | .finishing i => .critical (kitchen_finish_cooking i)
  | .leaving => .critical kitchen_cook_done
  | .returned => .exit

/-! ### Couriers -/

/-- Program points of `courier_thread`; `taken` counts the pizzas it has taken
    so far, which the program does not. -/
inductive CourierPc where
  /-- head of the loop, or in `pthread_cond_wait` -/
  | loop (taken : ℕ)
  /-- in `kitchen_take_pizza`, with the mutex -/
  | taking (taken : ℕ)
  | delivering (taken : ℕ)
  /-- `kitchen_take_pizza` has returned 0 -/
  | returned (taken : ℕ)
  deriving DecidableEq

def kitchen_take_pizza (taken : ℕ) (k : Kitchen) : Leave Kitchen Cond CourierPc :=
  if k.ready_pizzas = 0 ∧ k.active_cooks > 0 then
    { data := k, sleep := some .cond_pizza_ready, next := .loop taken }
  else if k.ready_pizzas = 0 ∧ k.active_cooks = 0 then { data := k, next := .returned taken }
  else
    { data := { k with ready_pizzas := k.ready_pizzas - 1 }, next := .delivering (taken + 1) }

def courier_thread : CourierPc → Op Kitchen Cond Unit Unit CourierPc
  | .loop taken => .lock (.taking taken)
  | .taking taken => .critical (kitchen_take_pizza taken)
  | .delivering taken => .call fun w _ => some (w, .loop taken)
  | .returned _ => .exit

/-! ### The program -/

@[reducible] def Pc {P K : ℕ} : Thread P K → Type
  | .cook _ => CookPc
  | .courier _ => CourierPc

def op (cfg : Config) : ∀ t : cfg.Thread, Pc t → Op Kitchen Cond Unit Unit (Pc t)
  | .cook id => cook_thread (cfg.pizzas_to_make id)
  | .courier _ => courier_thread

abbrev Config.State (cfg : Config) : Type := Host Kitchen Cond Unit (Pc (P := cfg.P) (K := cfg.K))

def init (cfg : Config) : cfg.State where
  data := kitchen_init cfg.N_tables cfg.P
  owner := none
  asleep _ := none
  thread
    | .cook _ => CookPc.loop 0
    | .courier _ => CourierPc.loop 0
  world := ()

/-- Cooks and couriers in any order. -/
def kitchen (cfg : Config) : System cfg.State (Event cfg.Thread Unit) :=
  Monitor.system (op cfg) fun s => s = init cfg

def cookPc {cfg : Config} (s : cfg.State) (id : Fin cfg.P) : CookPc := s.thread (.cook id)
def courierPc {cfg : Config} (s : cfg.State) (id : Fin cfg.K) : CourierPc := s.thread (.courier id)

end PizzaHoare
