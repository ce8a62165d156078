/-!
# Async procedures

An async procedure is a tree: each `await` issues a command of the signature
`C` and resumes when the command resolves with a value of its result type, or
rejects with an error. `andThen` continues after either outcome; sequencing,
`try`/`catch` and `try`/`finally` are its instances.
-/

namespace Conc

/-- A procedure over commands `C`, where `c : C` resolves to a value of `R c`. -/
inductive Async (C : Type) (R : C → Type) (ε α : Type) where
  | done (r : Except ε α)
  | await (c : C) (k : Except ε (R c) → Async C R ε α)

namespace Async

variable {C : Type} {R : C → Type} {ε α β : Type}

/-- Run `p`, then continue with its outcome. -/
def andThen : Async C R ε α → (Except ε α → Async C R ε β) → Async C R ε β
  | .done r, f => f r
  | .await c k, f => .await c fun r => (k r).andThen f

def bind (p : Async C R ε α) (f : α → Async C R ε β) : Async C R ε β :=
  p.andThen fun
    | .ok a => f a
    | .error e => .done (.error e)

def tryCatch (p : Async C R ε α) (handler : ε → Async C R ε α) : Async C R ε α :=
  p.andThen fun
    | .ok a => .done (.ok a)
    | .error e => handler e

/-- `try p finally f`: a rejection of `f` replaces the outcome of `p`. -/
def tryFinally (p : Async C R ε α) (f : Async C R ε Unit) : Async C R ε α :=
  p.andThen fun r => f.andThen fun
    | .ok _ => .done r
    | .error e => .done (.error e)

instance : Monad (Async C R ε) where
  pure a := .done (.ok a)
  bind := bind

def call (c : C) : Async C R ε (R c) := .await c .done

def throw (e : ε) : Async C R ε α := .done (.error e)

/-- The outcome of a synchronous computation. -/
def ofExcept (r : Except ε α) : Async C R ε α := .done r

/-- `for (const a of l) await body(a)`. -/
def forEach (body : α → Async C R ε Unit) : List α → Async C R ε Unit
  | [] => .done (.ok ())
  | a :: l => (body a).bind fun _ => forEach body l

/-- Every command the procedure may come to wait for satisfies `P`. -/
def Issues (P : C → Prop) : Async C R ε α → Prop
  | .done _ => True
  | .await c k => P c ∧ ∀ r, (k r).Issues P

/-! ## The commands of a procedure -/

section
variable {P : C → Prop}

theorem issues_done (r : Except ε α) : (Async.done r : Async C R ε α).Issues P := trivial

theorem issues_call {c : C} (h : P c) : (call c : Async C R ε (R c)).Issues P := ⟨h, fun _ => trivial⟩

theorem issues_andThen {p : Async C R ε α} {f : Except ε α → Async C R ε β} (hp : p.Issues P)
    (hf : ∀ r, (f r).Issues P) : (p.andThen f).Issues P := by
  induction p with
  | done r => exact hf r
  | await c k ih => exact ⟨hp.1, fun r => ih r (hp.2 r)⟩

theorem issues_bind {p : Async C R ε α} {f : α → Async C R ε β} (hp : p.Issues P) (hf : ∀ a, (f a).Issues P) :
    (p.bind f).Issues P := by
  refine issues_andThen hp fun r => ?_
  cases r with
  | ok a => exact hf a
  | error e => exact issues_done _

theorem issues_tryCatch {p : Async C R ε α} {f : ε → Async C R ε α} (hp : p.Issues P) (hf : ∀ e, (f e).Issues P) :
    (p.tryCatch f).Issues P := by
  refine issues_andThen hp fun r => ?_
  cases r with
  | ok a => exact issues_done _
  | error e => exact hf e

theorem issues_tryFinally {p : Async C R ε α} {f : Async C R ε Unit} (hp : p.Issues P) (hf : f.Issues P) :
    (p.tryFinally f).Issues P := by
  refine issues_andThen hp fun r => issues_andThen hf fun r' => ?_
  cases r' <;> exact issues_done _

theorem issues_forEach {body : α → Async C R ε Unit} (hbody : ∀ a, (body a).Issues P) (l : List α) :
    (forEach body l).Issues P := by
  induction l with
  | nil => exact issues_done _
  | cons a l ih => exact issues_bind (hbody a) fun _ => ih

end

end Async

end Conc
