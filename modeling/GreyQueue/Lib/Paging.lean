import Mathlib.Data.List.Perm.Subperm
import Mathlib.Data.List.Sort
import Mathlib.Order.Nat
import GreyQueue.Lib.Table

/-!
# Pages of a listing

A listing is a sorted list that is read in pages, by an offset and a limit, while it keeps
changing.  The position of a row is the number of rows before it.  If no row that is there
moves towards the front, walking page by page until a short page shows every row that was
there in the beginning, whatever is inserted meanwhile.

## Main definitions

* `page` — a page of a listing.
* `rank` — the number of rows before a row.

## Main results

* `getElem?_rank` — a sorted listing has each row at its rank.
* `rank_le_of_evolves` — rows that are added push the others back.
* `exists_page` — a walk shows every row that does not move towards the front.
-/

namespace Lib.Paging

variable {α : Type}

/-- A page of a listing. -/
def page (l : List α) (offset limit : ℕ) : List α := (l.drop offset).take limit

/-- A row is on the page around its position. -/
theorem mem_page {l : List α} {offset limit i : ℕ} {x : α} (hx : l[i]? = some x)
    (hlo : offset ≤ i) (hhi : i < offset + limit) : x ∈ page l offset limit := by
  refine List.mem_of_getElem? (i := i - offset) ?_
  rw [page, List.getElem?_take_of_lt (by omega), List.getElem?_drop, Nat.add_sub_cancel' hlo]
  exact hx

/-- A page that is not full is the last one. -/
theorem length_lt_of_short {l : List α} {offset limit : ℕ}
    (h : (page l offset limit).length < limit) : l.length < offset + limit := by
  rw [page, List.length_take, List.length_drop] at h
  omega

variable (before : α → α → Prop) [DecidableRel before]

/-- The number of rows before a row. -/
def rank (l : List α) (x : α) : ℕ := l.countP fun y => !decide (before x y)

variable {before}

theorem rank_perm {l l' : List α} (h : l.Perm l') (x : α) : rank before l x = rank before l' x :=
  h.countP_eq _

/-- A row of a sorted list is found at its rank. -/
theorem getElem?_rank [Std.Total before] {l : List α} {x : α} (hs : l.Pairwise before)
    (hx : x ∈ l) (hanti : ∀ y ∈ l, before x y → before y x → y = x) :
    l[rank before l x]? = some x := by
  induction l with
  | nil => cases hx
  | cons a l ih =>
      obtain ⟨ha, hs⟩ := List.pairwise_cons.mp hs
      by_cases hxa : x = a
      · -- nothing stands before the head
        subst hxa
        have hself : before x x := (Std.Total.total x x).elim id id
        have hzero : rank before (x :: l) x = 0 := by
          rw [rank, List.countP_eq_zero]
          intro y hy
          rcases List.mem_cons.mp hy with rfl | hy
          · simpa using hself
          · simpa using ha y hy
        rw [hzero]
        rfl
      · have hxl : x ∈ l := (List.mem_cons.mp hx).resolve_left hxa
        have hnot : ¬ before x a := fun h =>
          hxa (hanti a List.mem_cons_self h (ha x hxl)).symm
        have hsucc : rank before (a :: l) x = rank before l x + 1 := by
          rw [rank, List.countP_cons]
          simp [hnot, rank]
        rw [hsucc, List.getElem?_cons_succ]
        exact ih hs hxl fun y hy => hanti y (List.mem_cons_of_mem _ hy)

/-- ... so it is listed on the page around its rank. -/
theorem mem_page_sorted [Std.Total before] [IsTrans α before] {l : List α} {x : α} (hx : x ∈ l)
    (hanti : ∀ y ∈ l, before x y → before y x → y = x) {offset limit : ℕ}
    (hlo : offset ≤ rank before l x) (hhi : rank before l x < offset + limit) :
    x ∈ page (l.insertionSort before) offset limit := by
  have hperm := List.perm_insertionSort before l
  rw [← rank_perm hperm] at hlo hhi
  refine mem_page (getElem?_rank (List.pairwise_insertionSort before l) ?_ ?_) hlo hhi
  · exact hperm.mem_iff.mpr hx
  · exact fun y hy => hanti y (hperm.mem_iff.mp hy)

theorem rank_lt_length [Std.Total before] {l : List α} {x : α} (hx : x ∈ l) :
    rank before l x < l.length := by
  obtain ⟨pre, post, rfl⟩ := List.append_of_mem hx
  have hself : before x x := (Std.Total.total x x).elim id id
  rw [rank, List.countP_append, List.countP_cons, List.length_append, List.length_cons]
  have hpre := List.countP_le_length (p := fun y => !decide (before x y)) (l := pre)
  have hpost := List.countP_le_length (p := fun y => !decide (before x y)) (l := post)
  simp only [hself, decide_true, Bool.not_true, Bool.false_eq_true, if_false]
  omega

/-- Rows that are added, or rewritten without a change of the order, leave a row at its rank
or push it back. -/
theorem rank_le_of_evolves {κ : Type} [Keyed α κ] [DecidableEq κ] {R : α → α → Prop}
    {t u : Table α} (h : Table.Evolves R t u) {x x' : α}
    (horder : ∀ y y', R y y' → (before x y ↔ before x' y')) :
    rank before t.rows x ≤ rank before u.rows x' := by
  rw [rank, rank, List.countP_eq_length_filter, List.countP_eq_length_filter]
  -- the keys of the rows before `x` are keys of rows before `x'`
  have hsub : (t.rows.filter fun y => !decide (before x y)).map Keyed.key ⊆
      (u.rows.filter fun y => !decide (before x' y)).map Keyed.key := by
    intro k hk
    obtain ⟨y, hy, rfl⟩ := List.mem_map.mp hk
    obtain ⟨hy, hbefore⟩ := List.mem_filter.mp hy
    obtain ⟨y', hy', hR⟩ := h _ y (Table.find?_of_mem hy)
    refine List.mem_map.mpr ⟨y', List.mem_filter.mpr ⟨Table.mem_of_find? hy', ?_⟩,
      Table.key_of_find? hy'⟩
    simpa [horder y y' hR] using hbefore
  have hnodup : ((t.rows.filter fun y => !decide (before x y)).map Keyed.key).Nodup :=
    (List.filter_sublist.map Keyed.key).nodup t.nodup
  simpa using (hnodup.subperm hsub).length_le

/-- **Walking through pages.**  If a row never moves towards the front while the pages are read
and the last page is beyond it, one of the pages was around it. -/
theorem exists_page {r : ℕ → ℕ} (hr : ∀ i, r i ≤ r (i + 1)) {limit n : ℕ}
    (hlast : r n < (n + 1) * limit) : ∃ i ≤ n, i * limit ≤ r i ∧ r i < (i + 1) * limit := by
  have hex : ∃ i, r i < (i + 1) * limit := ⟨n, hlast⟩
  refine ⟨Nat.find hex, Nat.find_min' hex hlast, ?_, Nat.find_spec hex⟩
  cases hi : Nat.find hex with
  | zero => simp
  | succ i =>
      have hprev := Nat.find_min hex (m := i) (by omega)
      have hstep := hr i
      omega

end Lib.Paging
