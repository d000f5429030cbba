import GreyQueue.Lib.Program
import Mathlib.Logic.Relation
import Mathlib.Data.List.Basic
import Mathlib.Logic.Function.Basic
import Mathlib.Tactic.Tauto

/-!
# Locks and wait-for graphs

Agents hold locks and ask for locks.  An agent waits for another one that holds a lock it
asks for in a mode that conflicts, unless it holds the lock firmly itself.  If everybody
asks only for locks that rank above all they hold, the ranks along a chain of waiting agents
increase, so that no chain closes and every chain ends in an agent that does not wait.

## Main definitions

* `Mode` — the ways to hold a lock, and which of them conflict.
* `InOrder` — requests that respect the ranks.
* `WaitsOn` — the edges of the wait-for graph, labelled with locks.

## Main results

* `InOrder.ascending` — along a chain of waiting agents the ranks increase.
* `Ascending.acyclic` — the wait-for graph has no cycle.
* `Ascending.exists_free` — every chain ends in an agent that does not wait.
-/

namespace Lib

/-! ## Labelled graphs -/

section Graph

variable {α κ : Type} {W : α → κ → α → Prop} {rank : κ → ℕ}

/-- There is an edge. -/
def Edge (W : α → κ → α → Prop) (a b : α) : Prop := ∃ x, W a x b

/-- The labels of consecutive edges increase. -/
def Ascending (rank : κ → ℕ) (W : α → κ → α → Prop) : Prop :=
  ∀ a x b y c, W a x b → W b y c → rank x < rank y

/-- The first and the last label of a path. -/
theorem Ascending.ends (h : Ascending rank W) {a b : α} (hab : Relation.TransGen (Edge W) a b) :
    ∃ x a' y b', W a x a' ∧ W b' y b ∧ rank x ≤ rank y := by
  induction hab with
  | single hab =>
      obtain ⟨x, hx⟩ := hab
      exact ⟨x, _, x, _, hx, hx, Nat.le_refl _⟩
  | tail _ hbc ih =>
      obtain ⟨x, a', y, b', hx, hy, hle⟩ := ih
      obtain ⟨z, hz⟩ := hbc
      exact ⟨x, a', z, _, hx, hz, Nat.le_trans hle (Nat.le_of_lt (h _ _ _ _ _ hy hz))⟩

/-- A graph with ascending labels has no cycle. -/
theorem Ascending.acyclic (h : Ascending rank W) (a : α) : ¬ Relation.TransGen (Edge W) a a := by
  intro hcycle
  obtain ⟨x, a', y, b', hx, hy, hle⟩ := h.ends hcycle
  have hlt := h _ _ _ _ _ hy hx
  omega

/-- With bounded labels, every path leads to a node without an edge. -/
theorem Ascending.exists_free (h : Ascending rank W) {n : ℕ}
    (hbound : ∀ a x b, W a x b → rank x < n) (a : α) :
    ∃ b, Relation.ReflTransGen (Edge W) a b ∧ ∀ c, ¬ Edge W b c := by
  -- the label of the last edge leaves less and less room below the bound
  have hpath : ∀ k a x b, W a x b → n - rank x ≤ k →
      ∃ c, Relation.ReflTransGen (Edge W) b c ∧ ∀ d, ¬ Edge W c d := by
    intro k
    induction k with
    | zero =>
        intro a x b hab hk
        have := hbound a x b hab
        omega
    | succ k ih =>
        intro a x b hab hk
        by_cases hfree : ∀ d, ¬ Edge W b d
        · exact ⟨b, .refl, hfree⟩
        · push Not at hfree
          obtain ⟨d, y, hbd⟩ := hfree
          have hlt := h _ _ _ _ _ hab hbd
          have := hbound b y d hbd
          obtain ⟨c, hdc, hc⟩ := ih b y d hbd (by omega)
          exact ⟨c, .head ⟨y, hbd⟩ hdc, hc⟩
  by_cases hfree : ∀ d, ¬ Edge W a d
  · exact ⟨a, .refl, hfree⟩
  · push Not at hfree
    obtain ⟨b, x, hab⟩ := hfree
    obtain ⟨c, hbc, hc⟩ := hpath n a x b hab (by omega)
    exact ⟨c, .head ⟨x, hab⟩ hbc, hc⟩

end Graph

/-! ## Locks -/

/-- Ways to have a row or a key: a reference to the row, a change of it that leaves its key
alone, the row for oneself, and a new row with that key. -/
inductive Mode
  | keyShare | noKeyUpdate | update | insert
  deriving DecidableEq, Repr

/-- Whether a request has to wait for a lock that another agent holds.  A row that another
agent inserted is not visible, so that only an insert with the same key waits for it; an
insert also waits for a change of the row that has its key. -/
def Mode.conflicts (requested held : Mode) : Bool :=
  match requested, held with
  | .keyShare, .update => true
  | .noKeyUpdate, .noKeyUpdate => true
  | .noKeyUpdate, .update => true
  | .update, .insert => false
  | .update, _ => true
  | .insert, .insert => true
  | .insert, .noKeyUpdate => true
  | _, _ => false

section Locks

variable {κ : Type}

/-- The row is the agent's own: asking for it again never waits. -/
def Firm (held : List (κ × Mode)) (x : κ) : Prop := (x, .update) ∈ held ∨ (x, .insert) ∈ held

theorem Firm.mono {held held' : List (κ × Mode)} {x : κ} (h : Firm held x) (hsub : held ⊆ held') :
    Firm held' x :=
  h.imp (fun hx => hsub hx) (fun hx => hsub hx)

@[simp] theorem firm_append (l held : List (κ × Mode)) (x : κ) :
    Firm (l ++ held) x ↔ Firm l x ∨ Firm held x := by
  simp only [Firm, List.mem_append]
  tauto

/-- Every request is for a lock that is held firmly, or that ranks above all that are held. -/
def InOrder (rank : κ → ℕ) (held requests : List (κ × Mode)) : Prop :=
  ∀ r ∈ requests, Firm held r.1 ∨ ∀ x ∈ held, rank x.1 < rank r.1

variable {α : Type}

/-- The agent `a` asks for the lock `x`, which `b` holds in a conflicting mode. -/
def WaitsOn (requests held : α → List (κ × Mode)) (a : α) (x : κ) (b : α) : Prop :=
  a ≠ b ∧ ¬ Firm (held a) x ∧ ∃ m m', (x, m) ∈ requests a ∧ (x, m') ∈ held b ∧
    m.conflicts m' = true

/-- Requests in order wait in ascending order. -/
theorem InOrder.ascending {rank : κ → ℕ} {requests held : α → List (κ × Mode)}
    (h : ∀ a, InOrder rank (held a) (requests a)) : Ascending rank (WaitsOn requests held) := by
  rintro a x b y c ⟨-, -, m, m', -, hx, -⟩ ⟨-, hfirm, n, n', hy, -, -⟩
  exact (h b (y, n) hy).resolve_left hfirm (x, m') hx

end Locks

/-! ## Statements that lock -/

/-- What the statements of a language ask for and take. -/
class Locking (S : Type → Type) (κ : outParam Type) where
  /-- The locks that a statement waits for. -/
  requests : {β : Type} → S β → List (κ × Mode)
  /-- The locks that the transaction has when the statement is answered. -/
  takes : {β : Type} → S β → β → List (κ × Mode)
  /-- Those of them that the statement got without waiting: it passes over what others hold. -/
  skims : {β : Type} → S β → β → List (κ × Mode)
  /-- What is known of an answer. -/
  Answers : {β : Type} → S β → β → Prop
  /-- Every statement has an answer that passes over everything. -/
  answerable : ∀ {β : Type} (s : S β), ∃ b, Answers s b ∧ skims s b = []

section Audit

variable {S : Type → Type} {κ E α β : Type} [Locking S κ]

/-- Every statement of the program asks in order, whatever the answers before it were, and the
value it returns with the locks it then has is in `Q`. -/
def Audit (rank : κ → ℕ) :
    Prog S E α → List (κ × Mode) → (α → List (κ × Mode) → Prop) → Prop
  | .pure a, held, Q => Q a held
  | .throw _, _, _ => True
  | .stmt s k, held, Q => InOrder rank held (Locking.requests s) ∧
      ∀ b, Locking.Answers s b → Audit rank (k b) (Locking.takes s b ++ held) Q

variable {rank : κ → ℕ} {held : List (κ × Mode)} {Q : α → List (κ × Mode) → Prop}

/-- Sequencing; the locks of the first part are still there in the second. -/
theorem Audit.bind {p : Prog S E β} {f : β → Prog S E α} {P : β → List (κ × Mode) → Prop}
    (hp : Audit rank p held P)
    (hf : ∀ b held', held ⊆ held' → P b held' → Audit rank (f b) held' Q) :
    Audit rank (p >>= f) held Q := by
  induction p generalizing held with
  | pure b => exact hf b held (List.Subset.refl _) hp
  | throw e => trivial
  | stmt s k ih =>
      refine ⟨hp.1, fun b hb => ih b (hp.2 b hb) fun a held' hsub => ?_⟩
      exact hf a held' fun x hx => hsub (List.mem_append_right _ hx)

/-- The loop rule: what the body needs of an element does not go away. -/
theorem Audit.forEach {ρ : Type} {body : ρ → Prog S E Unit} {I : ρ → List (κ × Mode) → Prop}
    (hkeep : ∀ r held held', held ⊆ held' → I r held → I r held')
    (hbody : ∀ r held, I r held → Audit rank (body r) held fun _ _ => True) (l : List ρ)
    (h : ∀ r ∈ l, I r held) : Audit rank (Prog.forEach l body) held fun _ _ => True := by
  induction l generalizing held with
  | nil => trivial
  | cons r l ih =>
      refine (hbody r held (h r List.mem_cons_self)).bind fun _ held' hsub _ => ?_
      exact ih fun r' hr' => hkeep r' _ _ hsub (h r' (List.mem_cons_of_mem r hr'))

end Audit

/-! ## Concurrent transactions -/

section Sessions

/-- A transaction under way: what is left of its body, and its locks. -/
structure Conn (S : Type → Type) (E κ α : Type) : Type 1 where
  body : Prog S E α
  held : List (κ × Mode)

variable {S : Type → Type} {κ E α : Type} [Locking S κ]

/-- The locks that the next statement waits for. -/
def Conn.requests (c : Conn S E κ α) : List (κ × Mode) :=
  match c.body with
  | .stmt s _ => Locking.requests s
  | _ => []

/-- The transactions under way, by connection. -/
abbrev LockState (S : Type → Type) (E κ α : Type) : Type 1 := ℕ → Option (Conn S E κ α)

variable (st : LockState S E κ α)

/-- The locks of a connection. -/
def LockState.held (n : ℕ) : List (κ × Mode) := ((st n).map Conn.held).getD []

/-- What a connection asks for. -/
def LockState.requests (n : ℕ) : List (κ × Mode) := ((st n).map Conn.requests).getD []

/-- The wait-for graph. -/
def LockState.Waits (n : ℕ) (x : κ) (m : ℕ) : Prop := WaitsOn st.requests st.held n x m

/-- The connection does not wait. -/
def LockState.Free (n : ℕ) : Prop := ∀ m, ¬ Edge st.Waits n m

/-- Nobody else holds the lock in a mode that conflicts. -/
def LockState.Available (n : ℕ) (x : κ × Mode) : Prop :=
  ∀ m, m ≠ n → ∀ mode, (x.1, mode) ∈ st.held m → x.2.conflicts mode = false

/-- The transaction of a connection proceeds: its next statement is answered, which needs that
it does not wait, or it is done and commits, or it has raised.  Locks are held to the end. -/
inductive Proceeds (st : LockState S E κ α) (n : ℕ) : LockState S E κ α → Prop
  | answer {β : Type} {s : S β} {k held b} : st n = some ⟨.stmt s k, held⟩ → st.Free n →
      Locking.Answers s b → (∀ x ∈ Locking.skims s b, st.Available n x) →
      Proceeds st n (Function.update st n (some ⟨k b, Locking.takes s b ++ held⟩))
  | commit {a held} : st n = some ⟨.pure a, held⟩ → Proceeds st n (Function.update st n none)
  | raised {e held} : st n = some ⟨.throw e, held⟩ → Proceeds st n (Function.update st n none)

/-- One step of one connection: a transaction begins, proceeds, or is rolled back from outside
or by the failure of a statement. -/
inductive LockStep (bodies : Prog S E α → Prop) : LockState S E κ α → LockState S E κ α → Prop
  | start {st n body} : st n = none → bodies body →
      LockStep bodies st (Function.update st n (some ⟨body, []⟩))
  | proceed {st n st'} : Proceeds st n st' → LockStep bodies st st'
  | rollback {st n} : LockStep bodies st (Function.update st n none)

/-- The lock states that interleavings of the given transactions lead to. -/
def LockReachable (bodies : Prog S E α → Prop) (st : LockState S E κ α) : Prop :=
  Relation.ReflTransGen (LockStep bodies) (fun _ => none) st

variable {st} {bodies : Prog S E α → Prop} {rank : κ → ℕ}

/-- Every transaction under way asks in order from here on. -/
def LockState.Audited (rank : κ → ℕ) (st : LockState S E κ α) : Prop :=
  ∀ n c, st n = some c → Audit rank c.body c.held fun _ _ => True

theorem LockState.Audited.update {c : Option (Conn S E κ α)} {n : ℕ} (h : st.Audited rank)
    (hc : ∀ c', c = some c' → Audit rank c'.body c'.held fun _ _ => True) :
    LockState.Audited rank (Function.update st n c) := by
  intro m c' hm
  by_cases hmn : m = n
  · subst hmn
    rw [Function.update_self] at hm
    exact hc c' hm
  · rw [Function.update_of_ne hmn] at hm
    exact h m c' hm

/-- A transaction that proceeds keeps its order. -/
theorem Proceeds.audited {n : ℕ} {st' : LockState S E κ α} (h : Proceeds st n st')
    (hst : st.Audited rank) : st'.Audited rank := by
  cases h with
  | answer hn _ hb _ =>
      refine hst.update ?_
      rintro c' ⟨⟩
      exact (hst n _ hn).2 _ hb
  | commit hn => exact hst.update (by simp)
  | raised hn => exact hst.update (by simp)

theorem LockStep.audited {st' : LockState S E κ α}
    (hbodies : ∀ body, bodies body → Audit rank body [] fun _ _ => True)
    (h : LockStep bodies st st') (hst : st.Audited rank) : st'.Audited rank := by
  cases h with
  | start _ hbody =>
      refine hst.update ?_
      rintro c' ⟨⟩
      exact hbodies _ hbody
  | proceed h => exact h.audited hst
  | rollback => exact hst.update (by simp)

/-- If every transaction alone asks in order, so do all at every point of an interleaving. -/
theorem LockReachable.audited (hbodies : ∀ body, bodies body → Audit rank body [] fun _ _ => True)
    (h : LockReachable bodies st) : st.Audited rank := by
  induction h with
  | refl => exact fun n c hn => nomatch hn
  | tail _ hstep ih => exact hstep.audited hbodies ih

theorem LockState.Audited.inOrder (h : st.Audited rank) (n : ℕ) :
    InOrder rank (st.held n) (st.requests n) := by
  cases hn : st n with
  | none => simp [InOrder, LockState.requests, hn]
  | some c =>
      have hc := h n c hn
      rcases c with ⟨a | e | ⟨s, k⟩, held⟩
      · simp [InOrder, LockState.requests, Conn.requests, hn]
      · simp [InOrder, LockState.requests, Conn.requests, hn]
      · simpa [LockState.requests, LockState.held, Conn.requests, hn] using hc.1

/-- The wait-for graph has no cycle. -/
theorem LockState.Audited.acyclic (h : st.Audited rank) (n : ℕ) :
    ¬ Relation.TransGen (Edge st.Waits) n n :=
  (InOrder.ascending h.inOrder).acyclic n

/-- A transaction that does not wait proceeds. -/
theorem LockState.Free.proceeds {n : ℕ} (h : st.Free n) {c : Conn S E κ α} (hn : st n = some c) :
    ∃ st', Proceeds st n st' := by
  rcases c with ⟨a | e | ⟨s, k⟩, held⟩
  · exact ⟨_, .commit hn⟩
  · exact ⟨_, .raised hn⟩
  · obtain ⟨b, hb, hskims⟩ := Locking.answerable s
    exact ⟨_, .answer hn h hb (by simp [hskims])⟩

/-- Whoever is waited for is under way. -/
theorem LockState.active_of_edge {n m : ℕ} (h : Edge st.Waits n m) : ∃ c, st m = some c := by
  obtain ⟨x, -, -, -, mode, -, hx, -⟩ := h
  cases hm : st m with
  | none => simp [LockState.held, hm] at hx
  | some c => exact ⟨c, rfl⟩

/-- From every transaction under way the waits lead to one that proceeds. -/
theorem LockState.Audited.progress (h : st.Audited rank) (bound : ℕ) (hbound : ∀ x, rank x < bound)
    {n : ℕ} {c : Conn S E κ α} (hn : st n = some c) :
    ∃ m st', Relation.ReflTransGen (Edge st.Waits) n m ∧ Proceeds st m st' := by
  obtain ⟨m, hpath, hfree⟩ :=
    (InOrder.ascending h.inOrder).exists_free (fun _ x _ _ => hbound x) n
  have hactive : ∃ c, st m = some c := by
    cases hpath with
    | refl => exact ⟨c, hn⟩
    | tail _ hedge => exact LockState.active_of_edge hedge
  obtain ⟨c', hm⟩ := hactive
  obtain ⟨st', hst'⟩ := LockState.Free.proceeds hfree hm
  exact ⟨m, st', hpath, hst'⟩

end Sessions

end Lib
