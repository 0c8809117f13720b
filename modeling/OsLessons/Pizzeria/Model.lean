import OsLessons.Pizzeria.Queue

/-! # The pizzeria with semaphores

  `lesson7_pizza.c`: cooks put pizzas into the queue, couriers take them out,
  and `main` ends the couriers with a negative value for each of them.

  `printf` and `sleep` take time and nothing else. `id * 1000 + i` and the sums
  are within the range of `int`, so they are integers here. `sem_init`,
  `malloc` and `pthread_create` succeed.
-/

namespace Pizzeria

open Lts Semaphore

/-! ### Threads and data -/

/-- The command line, and how many pizzas each cook has drawn. -/
structure Config where
  N_tables : ℕ
  P : ℕ
  K : ℕ
  pizzas_to_make : Fin P → ℕ

inductive Thread (P K : ℕ) where
  | cook (id : Fin P)
  | courier (id : Fin K)
  | main
  deriving DecidableEq

/-- Cooks, couriers and `main` in one sum. -/
def Thread.equiv (P K : ℕ) : Thread P K ≃ (Fin P ⊕ Fin K) ⊕ Unit where
  toFun
    | .cook id => .inl (.inl id)
    | .courier id => .inl (.inr id)
    | .main => .inr ()
  invFun
    | .inl (.inl id) => .cook id
    | .inl (.inr id) => .courier id
    | .inr () => .main
  left_inv t := by cases t <;> rfl
  right_inv t := by rcases t with (_ | _) | _ <;> rfl

instance (P K : ℕ) : Fintype (Thread P K) := Fintype.ofEquiv _ (Thread.equiv P K).symm

theorem Thread.sum_eq {P K : ℕ} (f : Thread P K → ℤ) :
    ∑ t, f t = ∑ id, f (.cook id) + ∑ id, f (.courier id) + f .main := by
  rw [← (Thread.equiv P K).symm.sum_comp, Fintype.sum_sum_type, Fintype.sum_sum_type]
  simp [Thread.equiv]

/-- The semaphores of the program; three of them belong to the queue. -/
inductive Sem where
  | sem_tables
  | sem_stats_mutex
  | queue (k : QueueSem)
  deriving DecidableEq

instance : Fintype Sem where
  elems := {.sem_tables, .sem_stats_mutex, .queue .sem_slots, .queue .sem_items,
    .queue .sem_queue_mutex}
  complete k := by
    rcases k with _ | _ | (_ | _ | _) <;> decide

/-- The variables of the program, and the threads that `main` has created. -/
structure Shared (P K : ℕ) where
  queue_pizzas : PizzaQueue (Thread P K)
  delivered_total : ℕ
  created : Thread P K → Bool

def Shared.setQueue {P K : ℕ} (d : Shared P K) (q : PizzaQueue (Thread P K)) : Shared P K :=
  { d with queue_pizzas := q }

/-- `pthread_create`. -/
def Shared.create {P K : ℕ} (d : Shared P K) (t : Thread P K) : Shared P K :=
  { d with created := Function.update d.created t true }

namespace Config

variable (cfg : Config)

def total_pizzas : ℕ := ∑ id, cfg.pizzas_to_make id

def queue_capacity : ℕ := if cfg.total_pizzas + cfg.K = 0 then 1 else cfg.total_pizzas + cfg.K

abbrev Thread : Type := Pizzeria.Thread cfg.P cfg.K

abbrev Shared : Type := Pizzeria.Shared cfg.P cfg.K

end Config

/-! ### Program points -/

inductive CookPc where
  | unborn
  /-- head of the loop -/
  | loop (i : ℕ)
  /-- at a table, with pizza `i` in the making -/
  | cooking (i : ℕ)
  /-- in `queue_push` -/
  | pushing (i : ℕ) (pc : PushPc)
  /-- before `sem_post(&sem_tables)` -/
  | leaving (i : ℕ)
  | returned
  deriving DecidableEq

inductive CourierPc where
  | unborn
  /-- head of the loop -/
  | loop
  /-- in `queue_pop` -/
  | popping (pc : PopPc)
  | delivering (pizza_id : ℤ)
  /-- holds `sem_stats_mutex` -/
  | counting (pizza_id : ℤ)
  | counted (pizza_id : ℤ)
  | returned
  deriving DecidableEq

/-- `i` is the index of each loop. -/
inductive MainPc where
  | createCook (i : ℕ)
  | createCourier (i : ℕ)
  | joinCook (i : ℕ)
  /-- head of the loop that pushes the stop values -/
  | stop (i : ℕ)
  | pushing (i : ℕ) (pc : PushPc)
  | joinCourier (i : ℕ)
  /-- has printed "Simulation finished" -/
  | finished
  deriving DecidableEq

/-- Where a cook goes on during and after `queue_push`. -/
def CookPc.push (i : ℕ) : PushPc → CookPc
  | .returned => .leaving i
  | pc => .pushing i pc

/-- Where a courier goes on during and after `queue_pop`: a negative value makes
    it return. -/
def CourierPc.pop : PopPc → CourierPc
  | .returned value => if value < 0 then .returned else .delivering value
  | pc => .popping pc

/-- Where `main` goes on during and after `queue_push`. -/
def MainPc.push (i : ℕ) : PushPc → MainPc
  | .returned => .stop (i + 1)
  | pc => .pushing i pc

@[reducible] def Pc {P K : ℕ} : Thread P K → Type
  | .cook _ => CookPc
  | .courier _ => CourierPc
  | .main => MainPc

/-! ### Code -/

section code
variable (cfg : Config)

/-- A thread starts when it has been created. -/
def born {L : Type} (t : cfg.Thread) (l : L) (d : cfg.Shared) (_ : Unit) :
    Option (cfg.Shared × L) :=
  if d.created t then some (d, l) else none

/-- Go on without touching the data. -/
def goOn {L : Type} (l : L) (d : cfg.Shared) (_ : Unit) : Option (cfg.Shared × L) := some (d, l)

/-- `int pizza_id = id * 1000 + i`. -/
def pizza_id (id i : ℕ) : ℤ := id * 1000 + i

def cook_thread (id : Fin cfg.P) : CookPc → Op cfg.Shared Sem cfg.Thread Unit CookPc
  | .unborn => .act (born cfg (.cook id) (.loop 0))
  | .loop i =>
      if i < cfg.pizzas_to_make id then .wait .sem_tables (.cooking i)
      else .act (goOn cfg .returned)
  | .cooking i => .act (goOn cfg (.push i .waitSlots))
  | .pushing i pc =>
      (queue_push (.cook id) (pizza_id id i) pc).embed Shared.queue_pizzas Shared.setQueue
        Sem.queue (.push i)
  | .leaving i => .post .sem_tables 1 (.loop (i + 1))
  | .returned => .exit

def courier_thread (id : Fin cfg.K) : CourierPc → Op cfg.Shared Sem cfg.Thread Unit CourierPc
  | .unborn => .act (born cfg (.courier id) .loop)
  | .loop => .act (goOn cfg (.pop .waitItems))
  | .popping pc =>
      (queue_pop (.courier id) pc).embed Shared.queue_pizzas Shared.setQueue Sem.queue .pop
  | .delivering value => .wait .sem_stats_mutex (.counting value)
  | .counting value => .act fun d _ =>
      some ({ d with delivered_total := d.delivered_total + 1 }, .counted value)
  | .counted _ => .post .sem_stats_mutex 1 .loop
  | .returned => .exit

def main : MainPc → Op cfg.Shared Sem cfg.Thread Unit MainPc
  | .createCook i => .act fun d _ =>
      if h : i < cfg.P then some (d.create (.cook ⟨i, h⟩), .createCook (i + 1))
      else some (d, .createCourier 0)
  | .createCourier i => .act fun d _ =>
      if h : i < cfg.K then some (d.create (.courier ⟨i, h⟩), .createCourier (i + 1))
      else some (d, .joinCook 0)
  | .joinCook i =>
      if h : i < cfg.P then .join (.cook ⟨i, h⟩) (.joinCook (i + 1))
      else .act (goOn cfg (.stop 0))
  | .stop i =>
      if i < cfg.K then .act (goOn cfg (.push i .waitSlots))
      else .act (goOn cfg (.joinCourier 0))
  | .pushing i pc =>
      (queue_push .main (-1) pc).embed Shared.queue_pizzas Shared.setQueue Sem.queue (.push i)
  | .joinCourier i =>
      if h : i < cfg.K then .join (.courier ⟨i, h⟩) (.joinCourier (i + 1))
      else .act (goOn cfg .finished)
  | .finished => .exit

def op : ∀ t : cfg.Thread, Pc t → Op cfg.Shared Sem cfg.Thread Unit (Pc t)
  | .cook id => cook_thread cfg id
  | .courier id => courier_thread cfg id
  | .main => main cfg

def threads : Program cfg.Shared Sem Unit (Pc (P := cfg.P) (K := cfg.K)) where
  op := op cfg

end code

/-! ### The program -/

abbrev Config.State (cfg : Config) : Type := Host cfg.Shared Sem (Pc (P := cfg.P) (K := cfg.K))

/-- What `sem_init` sets. -/
def semInit (cfg : Config) : Sem → ℕ
  | .sem_tables => cfg.N_tables
  | .sem_stats_mutex => 1
  | .queue .sem_slots => cfg.queue_capacity
  | .queue .sem_items => 0
  | .queue .sem_queue_mutex => 1

/-- Before the first `pthread_create`; `malloc` leaves anything in `buf`. -/
def init (cfg : Config) (buf : ℕ → ℤ) : cfg.State where
  data :=
    { queue_pizzas :=
        { buf := buf, capacity := cfg.queue_capacity, head := 0, tail := 0, pushed := [],
          popped := [] }
      delivered_total := 0
      created := fun _ => false }
  sem := semInit cfg
  thread
    | .cook _ => CookPc.unborn
    | .courier _ => CourierPc.unborn
    | .main => MainPc.createCook 0

/-- All threads in any order. -/
def pizzeria (cfg : Config) : System cfg.State (Event cfg.Thread Unit) :=
  Semaphore.system (threads cfg) fun s => ∃ buf, s = init cfg buf

def cookPc {cfg : Config} (s : cfg.State) (id : Fin cfg.P) : CookPc := s.thread (.cook id)
def courierPc {cfg : Config} (s : cfg.State) (id : Fin cfg.K) : CourierPc := s.thread (.courier id)
def mainPc {cfg : Config} (s : cfg.State) : MainPc := s.thread .main

/-! ### Clients of the queue -/

/-- Where a thread is, as far as the queue is concerned. -/
def view {P K : ℕ} : ∀ t : Thread P K, Pc t → QueuePc
  | .cook id, .pushing i pc => .push (pizza_id id i) pc
  | .cook _, _ => .idle
  | .courier _, .popping pc => .pop pc
  | .courier _, _ => .idle
  | .main, .pushing _ pc => .push (-1) pc
  | .main, _ => .idle

end Pizzeria
