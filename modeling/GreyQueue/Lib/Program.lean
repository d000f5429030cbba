import Mathlib.Data.Nat.Notation
import Mathlib.Logic.Basic

/-!
# Transactions as programs over statements

A transaction body is a tree of statements: it issues a statement, receives the
answer, and continues, returns a value, or raises.  The tree fixes no meaning for
the statements.  A `Handler` gives them one: a statement, run in a state and in a
moment of the outside world (what the clock reads, which rows others hold), either
fails or answers and leaves a new state.

`Prog.exec` runs a whole program alone, one moment per statement.  The state it
returns on an error is the state at the point of the raise, before any rollback.
`Prog.Sat` is the rule used to reason about it: what holds of every execution
whose moments are all admissible.

## Main definitions

* `Prog S E α` — programs over the statements `S`, raising `E`.
* `Handler S E D M` — the meaning of statements on states `D` in moments `M`.
* `Prog.exec` — run a program on a feed of moments.
* `Prog.Sat` — a postcondition of every admissible execution.
* `Prog.Past` — what has been answered before a position of an execution.
-/

namespace Lib

/-- A result that is no error. -/
theorem exists_ok {ε α : Type} {x : Except ε α} (h : x.isOk = true) : ∃ a, x = .ok a := by
  cases x with
  | error e => cases h
  | ok a => exact ⟨a, rfl⟩

/-- A program over the statements `S`; `S β` are the statements answered in `β`. -/
inductive Prog (S : Type → Type) (E : Type) (α : Type) : Type 1
  /-- Return a value. -/
  | pure (a : α)
  /-- Raise. -/
  | throw (e : E)
  /-- Issue a statement and continue with its answer. -/
  | stmt {β : Type} (s : S β) (k : β → Prog S E α)

/-- What statements do: the answer and the new state, or an error of the statement
itself, which leaves the state alone. -/
class Handler (S : Type → Type) (E D M : outParam Type) where
  /-- Run one statement in a moment of the outside world. -/
  eval : {β : Type} → S β → M → D → Except E (β × D)

/-- The result of running a program: its value or error, the state at that point,
and the moments it did not use. -/
structure Outcome (E D M α : Type) where
  result : Except E α
  state : D
  feed : ℕ → M

namespace Prog

variable {S : Type → Type} {E D M : Type} {α β γ : Type}

/-- Sequencing; an error skips the continuation. -/
def bind : Prog S E α → (α → Prog S E β) → Prog S E β
  | .pure a, f => f a
  | .throw e, _ => .throw e
  | .stmt s k, f => .stmt s fun b => bind (k b) f

instance : Monad (Prog S E) where
  pure := Prog.pure
  bind := Prog.bind

/-- Issue one statement and return its answer. -/
def issue (s : S β) : Prog S E β := .stmt s .pure

@[simp] theorem monad_pure_eq (a : α) : (Pure.pure a : Prog S E α) = .pure a := rfl
@[simp] theorem pure_bind (a : α) (f : α → Prog S E β) : (Prog.pure a >>= f) = f a := rfl
@[simp] theorem throw_bind (e : E) (f : α → Prog S E β) :
    (Prog.throw e >>= f) = .throw e := rfl
@[simp] theorem stmt_bind (s : S γ) (k : γ → Prog S E α) (f : α → Prog S E β) :
    (Prog.stmt s k >>= f) = .stmt s fun c => k c >>= f := rfl
@[simp] theorem issue_bind (s : S γ) (f : γ → Prog S E β) :
    (issue s >>= f) = .stmt s f := rfl

/-- Run the body once per element of a list, in order. -/
def forEach {ρ : Type} (l : List ρ) (body : ρ → Prog S E Unit) : Prog S E Unit :=
  match l with
  | [] => .pure ()
  | r :: l => body r >>= fun _ => forEach l body

theorem bind_assoc (p : Prog S E α) (f : α → Prog S E β) (g : β → Prog S E γ) :
    (p >>= f >>= g) = (p >>= fun a => f a >>= g) := by
  induction p with
  | pure a => rfl
  | throw e => rfl
  | stmt s k ih => exact congrArg (Prog.stmt s) (funext fun b => ih b)

/-! ## Running a program alone -/

variable [Handler S E D M]

/-- Run a program, feeding one moment to each statement. -/
def exec : Prog S E α → (ℕ → M) → D → Outcome E D M α
  | .pure a, feed, d => ⟨.ok a, d, feed⟩
  | .throw e, feed, d => ⟨.error e, d, feed⟩
  | .stmt s k, feed, d =>
      match Handler.eval s (feed 0) d with
      | .ok (b, d') => exec (k b) (fun n => feed (n + 1)) d'
      | .error e => ⟨.error e, d, fun n => feed (n + 1)⟩

@[simp] theorem exec_pure (a : α) (feed : ℕ → M) (d : D) :
    (Prog.pure a : Prog S E α).exec feed d = ⟨.ok a, d, feed⟩ := rfl
@[simp] theorem exec_throw (e : E) (feed : ℕ → M) (d : D) :
    (Prog.throw e : Prog S E α).exec feed d = ⟨.error e, d, feed⟩ := rfl

theorem exec_stmt_ok {s : S β} {k : β → Prog S E α} {feed : ℕ → M} {d t : D} {b : β}
    (h : Handler.eval s (feed 0) d = .ok (b, t)) :
    (Prog.stmt s k).exec feed d = (k b).exec (fun n => feed (n + 1)) t := by
  simp only [exec, h]

theorem exec_stmt_error {s : S β} {k : β → Prog S E α} {feed : ℕ → M} {d : D} {e : E}
    (h : Handler.eval s (feed 0) d = .error e) :
    (Prog.stmt s k).exec feed d = ⟨.error e, d, fun n => feed (n + 1)⟩ := by
  simp only [exec, h]

/-- Running a sequence is running its parts. -/
theorem exec_bind (p : Prog S E α) (f : α → Prog S E β) (feed : ℕ → M) (d : D) :
    (p >>= f).exec feed d =
      match (p.exec feed d).result with
      | .ok a => (f a).exec (p.exec feed d).feed (p.exec feed d).state
      | .error e => ⟨.error e, (p.exec feed d).state, (p.exec feed d).feed⟩ := by
  induction p generalizing feed d with
  | pure a => rfl
  | throw e => rfl
  | stmt s k ih =>
      rw [stmt_bind]
      cases h : Handler.eval s (feed 0) d with
      | error e => rw [exec_stmt_error h, exec_stmt_error h]
      | ok r =>
          obtain ⟨b, d'⟩ := r
          rw [exec_stmt_ok h, exec_stmt_ok h]
          exact ih b _ _

/-! ## Postconditions of every execution -/

/-- Every execution of `p` from `d` whose moments satisfy `A` ends with a result and
a state that satisfy `Q`. -/
def Sat (A : M → Prop) : Prog S E α → D → (Except E α → D → Prop) → Prop
  | .pure a, d, Q => Q (.ok a) d
  | .throw e, d, Q => Q (.error e) d
  | .stmt s k, d, Q => ∀ m, A m →
      match Handler.eval s m d with
      | .ok (b, d') => Sat A (k b) d' Q
      | .error e => Q (.error e) d

variable {A : M → Prop} {Q R : Except E α → D → Prop}

@[simp] theorem sat_pure (a : α) (d : D) :
    Sat A (Prog.pure a : Prog S E α) d Q ↔ Q (.ok a) d := Iff.rfl
@[simp] theorem sat_throw (e : E) (d : D) :
    Sat A (Prog.throw e : Prog S E α) d Q ↔ Q (.error e) d := Iff.rfl
theorem sat_stmt (s : S β) (k : β → Prog S E α) (d : D) :
    Sat A (.stmt s k) d Q ↔ ∀ m, A m →
      match Handler.eval s m d with
      | .ok (b, d') => Sat A (k b) d' Q
      | .error e => Q (.error e) d := Iff.rfl

/-- A statement that answers. -/
theorem Sat.stmt_ok {s : S β} {k : β → Prog S E α} {d : D} {f : M → β} {g : M → D}
    (hs : ∀ m, A m → Handler.eval s m d = .ok (f m, g m))
    (h : ∀ m, A m → Sat A (k (f m)) (g m) Q) : Sat A (.stmt s k) d Q := by
  intro m hm
  rw [hs m hm]
  exact h m hm

/-- A statement that fails. -/
theorem Sat.stmt_error {s : S β} {k : β → Prog S E α} {d : D} {e : E}
    (hs : ∀ m, A m → Handler.eval s m d = .error e) (h : Q (.error e) d) :
    Sat A (.stmt s k) d Q := by
  intro m hm
  rw [hs m hm]
  exact h

theorem sat_bind (p : Prog S E β) (f : β → Prog S E α) (d : D) :
    Sat A (p >>= f) d Q ↔ Sat A p d fun r d' =>
      match r with
      | .ok a => Sat A (f a) d' Q
      | .error e => Q (.error e) d' := by
  induction p generalizing d with
  | pure a => rfl
  | throw e => rfl
  | stmt s k ih =>
      rw [stmt_bind, sat_stmt, sat_stmt]
      refine forall_congr' fun m => imp_congr_right fun _ => ?_
      split
      · exact ih _ _
      · exact Iff.rfl

theorem Sat.mono {p : Prog S E α} {d : D} (h : Sat A p d Q)
    (hqr : ∀ r d', Q r d' → R r d') : Sat A p d R := by
  induction p generalizing d with
  | pure a => exact hqr _ _ h
  | throw e => exact hqr _ _ h
  | stmt s k ih =>
      intro m hm
      have hs := h m hm
      split at hs
      · exact ih _ hs
      · exact hqr _ _ hs

/-- Sequencing with an intermediate condition. -/
theorem Sat.bind {p : Prog S E β} {f : β → Prog S E α} {d : D}
    {P : Except E β → D → Prop} (hp : Sat A p d P)
    (hok : ∀ a d', P (.ok a) d' → Sat A (f a) d' Q)
    (herr : ∀ e d', P (.error e) d' → Q (.error e) d') : Sat A (p >>= f) d Q := by
  refine (sat_bind p f d).mpr (hp.mono fun r d' h => ?_)
  cases r with
  | ok a => exact hok a d' h
  | error e => exact herr e d' h

/-- The loop rule: `I` holds of the elements still to come and the state; a body
that raises establishes `Q` itself. -/
theorem Sat.forEach {ρ : Type} {body : ρ → Prog S E Unit} {I : List ρ → D → Prop}
    {Q : Except E Unit → D → Prop} (hdone : ∀ d, I [] d → Q (.ok ()) d)
    (hbody : ∀ r l d, I (r :: l) d → Sat A (body r) d fun res d' =>
      match res with
      | .ok _ => I l d'
      | .error e => Q (.error e) d') :
    ∀ (l : List ρ) (d : D), I l d → Sat A (Prog.forEach l body) d Q
  | [], d, h => hdone d h
  | r :: l, d, h =>
      (hbody r l d h).bind (fun _ d' h' => Sat.forEach hdone hbody l d' h')
        (fun _ _ h' => h')

/-- What every admissible execution satisfies, a given one does. -/
theorem Sat.exec {p : Prog S E α} {d : D} (h : Sat A p d Q) {f : ℕ → M}
    (hf : ∀ n, A (f n)) : Q (p.exec f d).result (p.exec f d).state := by
  induction p generalizing f d with
  | pure a => exact h
  | throw e => exact h
  | stmt s k ih =>
      have hs := h (f 0) (hf 0)
      cases he : Handler.eval s (f 0) d with
      | ok r =>
          obtain ⟨b, d'⟩ := r
          rw [exec_stmt_ok he]
          rw [he] at hs
          exact ih b hs fun n => hf (n + 1)
      | error e =>
          rw [exec_stmt_error he]
          rw [he] at hs
          exact hs

/-! ## The beginning of an execution -/

/-- Before the statement at position `n` of an execution, a statement has been answered as `P`
says. -/
def Past (P : {β : Type} → S β → β → Prop) : Prog S E α → (ℕ → M) → D → ℕ → Prop
  | .stmt s k, feed, d, n + 1 =>
      match Handler.eval s (feed 0) d with
      | .ok (b, d') => P s b ∨ Past P (k b) (fun i => feed (i + 1)) d' n
      | .error _ => False
  | _, _, _, _ => False

theorem past_stmt_ok {P : {β : Type} → S β → β → Prop} {s : S β} {k : β → Prog S E α}
    {feed : ℕ → M} {d t : D} {b : β} {n : ℕ} (h : Handler.eval s (feed 0) d = .ok (b, t)) :
    (Prog.stmt s k).Past P feed d (n + 1) ↔
      P s b ∨ (k b).Past P (fun i => feed (i + 1)) t n := by
  simp only [Past, h]

/-- The first `i` statements of the program are answered alike in every moment. -/
def Lead : ℕ → Prog S E α → Prop
  | i + 1, .stmt s k =>
      (∀ m m' d, Handler.eval s m d = Handler.eval s m' d) ∧ ∀ b, Lead i (k b)
  | _, _ => True

theorem lead_zero (p : Prog S E α) : p.Lead 0 := by
  unfold Lead
  trivial

/-- The moments of such statements need not be admissible. -/
theorem Sat.exec_late {i : ℕ} {p : Prog S E α} {d : D} (h : Sat A p d Q) (hp : p.Lead i)
    {f : ℕ → M} (hf : ∀ n, i ≤ n → A (f n)) : Q (p.exec f d).result (p.exec f d).state := by
  induction i generalizing p d f with
  | zero => exact h.exec fun n => hf n (Nat.zero_le n)
  | succ i ih =>
      cases p with
      | pure a => exact h
      | throw e => exact h
      | stmt s k =>
          have hs := h (f (i + 1)) (hf _ (Nat.le_refl _))
          rw [hp.1 (f (i + 1)) (f 0) d] at hs
          cases he : Handler.eval s (f 0) d with
          | ok r =>
              obtain ⟨b, d'⟩ := r
              rw [he] at hs
              rw [exec_stmt_ok he]
              exact ih hs (hp.2 b) fun n hn => hf (n + 1) (by omega)
          | error e =>
              rw [he] at hs
              rw [exec_stmt_error he]
              exact hs

/-! ## What a program can issue and raise -/

/-- Every statement that the program may issue is in `P`, and whatever it raises is in `X`. -/
def Over (P : {β : Type} → S β → Prop) (X : E → Prop) : Prog S E α → Prop
  | .pure _ => True
  | .throw e => X e
  | .stmt s k => P s ∧ ∀ b, Over P X (k b)

variable {P : {β : Type} → S β → Prop} {X : E → Prop}

theorem Over.bind {p : Prog S E β} {f : β → Prog S E α} (hp : Over P X p)
    (hf : ∀ b, Over P X (f b)) : Over P X (p >>= f) := by
  induction p with
  | pure b => exact hf b
  | throw e => exact hp
  | stmt s k ih => exact ⟨hp.1, fun b => ih b (hp.2 b)⟩

theorem Over.mono {P' : {β : Type} → S β → Prop} {p : Prog S E α}
    (h : ∀ {β : Type} (s : S β), P s → P' s) (hp : Over P X p) : Over P' X p := by
  induction p with
  | pure a => trivial
  | throw e => exact hp
  | stmt s k ih => exact ⟨h s hp.1, fun b => ih b (hp.2 b)⟩

theorem Over.any {p : Prog S E α} (hp : Over P X p) : Over P (fun _ => True) p := by
  induction p with
  | pure a => trivial
  | throw e => trivial
  | stmt s k ih => exact ⟨hp.1, fun b => ih b (hp.2 b)⟩

/-- The loop issues what its body issues. -/
theorem Over.forEach {ρ : Type} {body : ρ → Prog S E Unit} (h : ∀ r, Over P X (body r)) :
    ∀ l : List ρ, Over P X (Prog.forEach l body)
  | [] => trivial
  | r :: l => (h r).bind fun _ => Over.forEach h l

/-- What every statement preserves, the program preserves. -/
theorem Over.invariant {I : D → Prop} {p : Prog S E α} (hp : Over P X p)
    (hs : ∀ {β : Type} (s : S β) m d b d', P s → Handler.eval s m d = .ok (b, d') → I d → I d')
    {feed : ℕ → M} {d : D} (hd : I d) : I (p.exec feed d).state := by
  induction p generalizing feed d with
  | pure a => exact hd
  | throw e => exact hd
  | stmt s k ih =>
      cases he : Handler.eval s (feed 0) d with
      | ok r =>
          rw [exec_stmt_ok he]
          exact ih r.1 (hp.2 r.1) (hs s _ _ _ _ hp.1 he hd)
      | error e =>
          rw [exec_stmt_error he]
          exact hd

/-- What a program raises it raises itself, or a statement does. -/
theorem Over.error {p : Prog S E α} (hp : Over P X p)
    (hs : ∀ {β : Type} (s : S β) m d e, Handler.eval s m d = .error e → X e) {feed : ℕ → M} {d : D}
    {e : E} (h : (p.exec feed d).result = .error e) : X e := by
  induction p generalizing feed d with
  | pure a => simp at h
  | throw e' =>
      cases h
      exact hp
  | stmt s k ih =>
      cases he : Handler.eval s (feed 0) d with
      | ok r =>
          rw [exec_stmt_ok he] at h
          exact ih r.1 (hp.2 r.1) h
      | error e' =>
          rw [exec_stmt_error he] at h
          cases h
          exact hs s _ _ _ he

/-- A statement that does not see what `f` changes in the state. -/
def Ignores (f : D → D) (s : S β) : Prop :=
  ∀ m d, Handler.eval s m (f d) = (Handler.eval s m d).map fun r => (r.1, f r.2)

/-- A program whose statements do not see what `f` changes runs alike with and without it. -/
theorem Over.exec_ignores {f : D → D} {p : Prog S E α} (hp : Over (Ignores f) X p)
    (feed : ℕ → M) (d : D) :
    p.exec feed (f d) = { p.exec feed d with state := f (p.exec feed d).state } := by
  induction p generalizing feed d with
  | pure a => rfl
  | throw e => rfl
  | stmt s k ih =>
      have hs := hp.1 (feed 0) d
      cases he : Handler.eval s (feed 0) d with
      | ok r =>
          rw [he] at hs
          rw [exec_stmt_ok hs, exec_stmt_ok he]
          exact ih r.1 (hp.2 r.1) _ _
      | error e =>
          rw [he] at hs
          rw [exec_stmt_error hs, exec_stmt_error he]

end Prog
end Lib
