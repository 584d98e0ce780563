import Mathlib.Data.List.Destutter
import Mathlib.Order.Lattice

/-!
# Decisions by thresholds

A search that compares a value with one key after the other is a tree of comparisons.  Between two
bounds it is a step function, and `Tree.rows` are its steps, each with the value it starts at.  The
rows that repeat what the one before says can be left out, which is what `List.destutter` does.
What remains is the same for two trees exactly when they decide alike between the bounds.
-/

namespace Threshold

variable {κ α β : Type*}

/-- A tree of comparisons with keys. -/
inductive Tree (κ α : Type*)
  | leaf (a : α)
  | node (key : κ) (below above : Tree κ α)

namespace Tree

variable [LinearOrder κ] {t u : Tree κ α} {lo hi x : κ} {a : α}

def eval : Tree κ α → κ → α
  | leaf a, _ => a
  | node key below above, x => if x < key then below.eval x else above.eval x

/-- Further comparisons after those of a tree. -/
def bind (f : α → Tree κ β) : Tree κ α → Tree κ β
  | leaf a => f a
  | node key below above => node key (below.bind f) (above.bind f)

theorem eval_bind (f : α → Tree κ β) (t : Tree κ α) (x : κ) :
    (t.bind f).eval x = (f (t.eval x)).eval x := by
  induction t with
  | leaf a => rfl
  | node key below above ihb iha =>
      rw [bind, eval, eval]
      split
      · exact ihb
      · exact iha

/-- The steps between two bounds: where each begins, and what is decided from there on. -/
def rows : Tree κ α → κ → κ → List (κ × α)
  | leaf a, lo, hi => if lo < hi then [(lo, a)] else []
  | node key below above, lo, hi => below.rows lo (min hi key) ++ above.rows (max lo key) hi

theorem rows_of_le (t : Tree κ α) (h : hi ≤ lo) : t.rows lo hi = [] := by
  induction t generalizing lo hi with
  | leaf a => exact if_neg (not_lt.mpr h)
  | node key below above ihb iha =>
      rw [rows, ihb ((min_le_left _ _).trans h), iha (h.trans (le_max_left _ _)), List.nil_append]

end Tree

/-! ## Tables of a function -/

variable [LinearOrder κ] {f g : κ → α} {lo mid mid' hi x : κ} {a : α} {l l' : List (κ × α)}

/-- The rows cut the values from `lo` on and below `hi` into steps of the function. -/
inductive Tabulates (f : κ → α) : κ → κ → List (κ × α) → Prop
  | nil {lo hi : κ} (le : hi ≤ lo) : Tabulates f lo hi []
  | cons {lo mid hi : κ} {a : α} {l : List (κ × α)} (lt : lo < mid) (le : mid ≤ hi)
      (const : ∀ x, lo ≤ x → x < mid → f x = a) (rest : Tabulates f mid hi l) :
      Tabulates f lo hi ((lo, a) :: l)

namespace Tabulates

theorem append (h : Tabulates f lo mid l) (h' : Tabulates f mid hi l') (hlo : lo ≤ mid)
    (hmid : mid ≤ hi) : Tabulates f lo hi (l ++ l') := by
  induction h with
  | nil le => rwa [le_antisymm hlo le]
  | cons lt le const _ ih => exact .cons lt (le.trans hmid) const (ih h' le hmid)

theorem congr (h : Tabulates f lo hi l) (hfg : ∀ x, lo ≤ x → x < hi → f x = g x) :
    Tabulates g lo hi l := by
  induction h with
  | nil le => exact .nil le
  | cons lt le const _ ih =>
      refine .cons lt le (fun x hlo hmid => ?_) (ih fun x hmid => hfg x (lt.le.trans hmid))
      rw [← hfg x hlo (hmid.trans_le le), const x hlo hmid]

/-- A table says where it starts. -/
theorem start_eq (h : Tabulates f mid hi l) (h' : Tabulates g mid' hi l) (hle : mid ≤ hi)
    (hle' : mid' ≤ hi) : mid = mid' := by
  cases h with
  | nil le =>
      cases h' with
      | nil le' => exact (le_antisymm hle le).trans (le_antisymm hle' le').symm
  | cons =>
      cases h' with
      | cons => rfl

/-- A table determines the function. -/
theorem eq_on (h : Tabulates f lo hi l) (h' : Tabulates g lo hi l) (hlo : lo ≤ x) (hhi : x < hi) :
    f x = g x := by
  induction h with
  | nil le => exact absurd (hlo.trans_lt hhi) (not_lt.mpr le)
  | @cons lo mid hi a l lt le const rest ih =>
      cases h' with
      | cons lt' le' const' rest' =>
          obtain rfl := rest.start_eq rest' le le'
          rcases lt_or_ge x mid with hx | hx
          · rw [const x hlo hx, const' x hlo hx]
          · exact ih rest' hx hhi

theorem forall_mem_iff (h : Tabulates f lo hi l) :
    (∀ row ∈ l, row.2 = a) ↔ ∀ x, lo ≤ x → x < hi → f x = a := by
  induction h with
  | nil le =>
      exact iff_of_true nofun fun x hlo hhi => absurd (hlo.trans_lt hhi) (not_lt.mpr le)
  | @cons lo mid hi b l lt le const rest ih =>
      rw [List.forall_mem_cons, ih]
      constructor
      · rintro ⟨hb, hrest⟩ x hlo hhi
        rcases lt_or_ge x mid with hx | hx
        · exact (const x hlo hx).trans hb
        · exact hrest x hx hhi
      · intro hall
        refine ⟨?_, fun x hmid => hall x (lt.le.trans hmid)⟩
        rw [← hall lo le_rfl (lt.trans_le le), const lo le_rfl lt]

end Tabulates

/-! ## Rows that say nothing new -/

/-- A row says something else than the one before. -/
def Changes (row row' : κ × α) : Prop := row.2 ≠ row'.2

instance [DecidableEq α] (row row' : κ × α) : Decidable (Changes row row') :=
  inferInstanceAs (Decidable (row.2 ≠ row'.2))

namespace Tabulates

theorem destutter' [DecidableEq α] (hlt : lo < mid) (hle : mid ≤ hi)
    (hconst : ∀ x, lo ≤ x → x < mid → f x = a) (h : Tabulates f mid hi l) :
    Tabulates f lo hi (l.destutter' Changes (lo, a)) := by
  induction h generalizing lo a with
  | nil le => exact .cons hlt hle hconst (.nil le)
  | @cons mid mid' hi b l lt le const rest ih =>
      rw [List.destutter']
      split
      · exact .cons hlt hle hconst (ih lt le const)
      · next hsame =>
          obtain rfl : a = b := not_not.mp hsame
          refine ih (hlt.trans lt) le fun x hlo hx => ?_
          rcases lt_or_ge x mid with hmid | hmid
          · exact hconst x hlo hmid
          · exact const x hmid hx

theorem destutter [DecidableEq α] (h : Tabulates f lo hi l) :
    Tabulates f lo hi (l.destutter Changes) := by
  cases h with
  | nil le => exact .nil le
  | cons lt le const rest => exact destutter' lt le const rest

/-- A row whose successor says something else lasts as long as the function is constant. -/
theorem le_of_isChain (h : Tabulates f mid hi l) (hchain : ((lo, a) :: l).IsChain Changes)
    (hlo : lo ≤ mid) (hle : mid' ≤ hi) (hconst : ∀ x, lo ≤ x → x < mid' → f x = a) :
    mid' ≤ mid := by
  by_contra hlt
  rw [not_le] at hlt
  cases h with
  | nil le => exact absurd (hlt.trans_le hle) (not_lt.mpr le)
  | @cons _ _ _ b l lt le const rest =>
      have hab : a ≠ b := (List.isChain_cons_cons.mp hchain).1
      exact hab ((hconst mid hlo hlt).symm.trans (const mid le_rfl lt))

/-- **Without rows that say nothing new there is one table only.** -/
theorem eq_of_isChain (h : Tabulates f lo hi l) (h' : Tabulates f lo hi l')
    (hchain : l.IsChain Changes) (hchain' : l'.IsChain Changes) : l = l' := by
  induction h generalizing l' with
  | nil le =>
      cases h' with
      | nil => rfl
      | cons lt' le' => exact absurd (lt'.trans_le le') (not_lt.mpr le)
  | @cons lo mid hi a l lt le const rest ih =>
      cases h' with
      | nil le' => exact absurd (lt.trans_le le) (not_lt.mpr le')
      | @cons _ mid' _ a' l' lt' le' const' rest' =>
          obtain rfl : a = a' := (const lo le_rfl lt).symm.trans (const' lo le_rfl lt')
          obtain rfl : mid = mid' := le_antisymm
            (rest'.le_of_isChain hchain' lt'.le le const)
            (rest.le_of_isChain hchain lt.le le' const')
          rw [ih rest' hchain.tail hchain'.tail]

end Tabulates

/-! ## The table of a tree -/

namespace Tree

variable {t u : Tree κ α}

theorem tabulates_rows (t : Tree κ α) (lo hi : κ) : Tabulates t.eval lo hi (t.rows lo hi) := by
  induction t generalizing lo hi with
  | leaf a =>
      rw [rows]
      split
      · next hlt => exact .cons hlt le_rfl (fun _ _ _ => rfl) (.nil le_rfl)
      · next hge => exact .nil (not_lt.mp hge)
  | node key below above ihb iha =>
      have hbelow {x : κ} (hx : x < key) : below.eval x = (node key below above).eval x :=
        (if_pos hx).symm
      have habove {x : κ} (hx : key ≤ x) : above.eval x = (node key below above).eval x :=
        (if_neg (not_lt.mpr hx)).symm
      rw [rows]
      rcases le_or_gt key lo with hlo | hlo
      · rw [rows_of_le below ((min_le_right _ _).trans hlo), max_eq_left hlo, List.nil_append]
        exact (iha lo hi).congr fun x hx _ => habove (hlo.trans hx)
      rcases le_or_gt hi key with hhi | hhi
      · rw [rows_of_le above (hhi.trans (le_max_right _ _)), min_eq_left hhi, List.append_nil]
        exact (ihb lo hi).congr fun x _ hx => hbelow (hx.trans_le hhi)
      · rw [min_eq_right hhi.le, max_eq_right hlo.le]
        exact ((ihb lo key).congr fun x _ hx => hbelow hx).append
          ((iha key hi).congr fun x hx _ => habove hx) hlo.le hhi.le

theorem rows_eq_iff : (∀ row ∈ t.rows lo hi, row.2 = a) ↔ ∀ x, lo ≤ x → x < hi → t.eval x = a :=
  (t.tabulates_rows lo hi).forall_mem_iff

/-- **Two trees decide alike between two bounds** exactly when they have the same rows there, but
for those that say nothing new. -/
theorem destutter_rows_eq_iff [DecidableEq α] :
    (t.rows lo hi).destutter Changes = (u.rows lo hi).destutter Changes ↔
      ∀ x, lo ≤ x → x < hi → t.eval x = u.eval x := by
  have ht := (t.tabulates_rows lo hi).destutter
  have hu := (u.tabulates_rows lo hi).destutter
  constructor
  · intro heq x hlo hhi
    exact ht.eq_on (heq ▸ hu) hlo hhi
  · intro heq
    exact (ht.congr heq).eq_of_isChain hu (List.isChain_destutter _ _) (List.isChain_destutter _ _)

end Tree

end Threshold
