import Mathlib.Algebra.Ring.Nat
import Mathlib.Data.List.Basic

/-!
# Words between separators

A list is cut into words at a separator; two separators next to each other have an empty word
between them.  `preceded` puts the words together again, each behind a separator.

`cut` is for scanners that look for the end of a word from a position on.  It is given the lengths
of the words only, and `wordEnd_drop` says that it finds what the scanner finds.  There is a cut
behind every position before the last separator (`isSome_cut`).
-/

namespace Words

variable {α : Type*} (sep : α)

/-- The words, each behind a separator. -/
def preceded (ws : List (List α)) : List α := ws.flatMap (sep :: ·)

/-- The words, with separators between them. -/
def joined : List (List α) → List α
  | [] => []
  | w :: ws => w ++ preceded sep ws

/-- The position of the first separator behind something else. -/
def wordEnd [DecidableEq α] : List α → Option ℕ
  | [] => none
  | c :: s => if c = sep then (wordEnd s).map (· + 1) else (s.findIdx? (· = sep)).map (· + 1)

/-- For words of these widths: the position behind the first word that is not empty and ends behind
`d`, and how many words there are up to it.  The last word is followed by nothing. -/
def cut (d : ℕ) : List ℕ → Option (ℕ × ℕ)
  | [] => none
  | n :: ns =>
    if n ≠ 0 ∧ d < n + 1 then
      if ns = [] then none else some (n + 1, 1)
    else (cut (d - (n + 1)) ns).map fun r => (n + 1 + r.1, r.2 + 1)

/-- The position of the last separator, behind the last word but one. -/
def room : List ℕ → ℕ
  | [] => 0
  | [_] => 0
  | n :: ns => n + 1 + room ns

variable {sep} {d : ℕ} {w s : List α} {ws : List (List α)}

@[simp] theorem preceded_nil : preceded sep [] = [] := rfl

@[simp] theorem preceded_cons : preceded sep (w :: ws) = sep :: w ++ preceded sep ws := rfl

@[simp] theorem joined_cons : joined sep (w :: ws) = w ++ preceded sep ws := rfl

theorem preceded_eq_joined (h : ws ≠ []) : preceded sep ws = sep :: joined sep ws := by
  cases ws with
  | nil => exact absurd rfl h
  | cons w ws => rfl

theorem length_preceded (ws : List (List α)) :
    (preceded sep ws).length = (ws.map fun w => w.length + 1).sum := by
  induction ws with
  | nil => rfl
  | cons w ws ih =>
      rw [preceded_cons, List.length_append, ih, List.length_cons, List.map_cons, List.sum_cons]

/-- A cut is in front of the words that follow. -/
theorem drop_cut {e k : ℕ} (h : cut d (ws.map List.length) = some (e, k)) :
    (preceded sep ws).drop e = preceded sep (ws.drop k) := by
  induction ws generalizing d e k with
  | nil => cases h
  | cons w ws ih =>
      have hdrop : ∀ j, (preceded sep (w :: ws)).drop (w.length + 1 + j) =
          (preceded sep ws).drop j := by
        intro j
        rw [preceded_cons, ← List.length_cons (a := sep), List.drop_append, List.drop_of_length_le
          (Nat.le_add_right _ _), List.nil_append, Nat.add_sub_cancel_left]
      rw [List.map_cons, cut] at h
      split at h
      case isTrue =>
        split at h
        case isTrue => cases h
        case isFalse =>
          cases h
          exact hdrop 0
      case isFalse =>
        obtain ⟨⟨e', k'⟩, hcut, heq⟩ := Option.map_eq_some_iff.mp h
        cases heq
        exact (hdrop _).trans (ih hcut)

/-! ## Where there is a cut -/

section Widths

variable {n e k : ℕ} {ns : List ℕ}

theorem room_cons (h : ns ≠ []) : room (n :: ns) = n + 1 + room ns := by
  cases ns with
  | nil => exact absurd rfl h
  | cons m ns => rfl

theorem cut_pos (h : cut d ns = some (e, k)) : 0 < k := by
  cases ns with
  | nil => cases h
  | cons n ns =>
      rw [cut] at h
      split at h
      case isTrue =>
        split at h
        case isTrue => cases h
        case isFalse =>
          cases h
          exact Nat.one_pos
      case isFalse =>
        obtain ⟨⟨e', k'⟩, -, heq⟩ := Option.map_eq_some_iff.mp h
        cases heq
        exact Nat.succ_pos _

theorem cut_bounds (h : cut d ns = some (e, k)) : d < e ∧ e ≤ (ns.map (· + 1)).sum := by
  induction ns generalizing d e k with
  | nil => cases h
  | cons n ns ih =>
      rw [List.map_cons, List.sum_cons]
      rw [cut] at h
      split at h
      case isTrue hlt =>
        split at h
        case isTrue => cases h
        case isFalse =>
          cases h
          exact ⟨hlt.2, Nat.le_add_right _ _⟩
      case isFalse =>
        obtain ⟨⟨e', k'⟩, hcut, heq⟩ := Option.map_eq_some_iff.mp h
        cases heq
        have hbounds := ih hcut
        dsimp only at hbounds ⊢
        omega

/-- The first word is cut off when it reaches behind the position. -/
theorem cut_eq_one_iff : cut d (n :: ns) = some (e, 1) ↔
    n ≠ 0 ∧ d < n + 1 ∧ ns ≠ [] ∧ e = n + 1 := by
  rw [cut]
  split
  case isTrue h =>
    split
    case isTrue hns => simp [hns]
    case isFalse hns => simp [h, hns, eq_comm]
  case isFalse h =>
    refine iff_of_false (fun heq => ?_) fun hcond => h ⟨hcond.1, hcond.2.1⟩
    obtain ⟨⟨e', k'⟩, hcut, heq⟩ := Option.map_eq_some_iff.mp heq
    have hk := cut_pos hcut
    have hsucc : k' + 1 = 1 := congrArg Prod.snd heq
    omega

/-- **There is a cut behind every position before the last separator.** -/
theorem isSome_cut (h : ∀ n ∈ ns, n ≠ 0) : (cut d ns).isSome = true ↔ d < room ns := by
  induction ns generalizing d with
  | nil => exact iff_of_false (by simp [cut]) (Nat.not_lt_zero d)
  | cons n ns ih =>
      obtain ⟨hn, hns⟩ := List.forall_mem_cons.mp h
      by_cases hnil : ns = []
      · subst hnil
        refine iff_of_false ?_ (Nat.not_lt_zero d)
        rw [cut, if_pos rfl, cut]
        split <;> simp
      · rw [cut, room_cons hnil, if_neg hnil]
        split
        case isTrue hlt => exact iff_of_true rfl (by omega)
        case isFalse hge =>
          have hle : n + 1 ≤ d := Nat.le_of_not_lt fun hlt => hge ⟨hn, hlt⟩
          rw [Option.isSome_map, ih hns]
          omega

end Widths

variable [DecidableEq α]

/-! ## Splitting -/

/-- A list is cut into a first word and others. -/
theorem exists_splitOn (sep : α) (s : List α) : ∃ v vs, s.splitOn sep = v :: vs :=
  List.exists_cons_of_ne_nil (List.splitOn_ne_nil sep s)

theorem splitOn_cons_self (sep : α) (s : List α) :
    (sep :: s).splitOn sep = [] :: s.splitOn sep := by
  rw [List.splitOn_cons_eq_if_modifyHead, if_pos (beq_self_eq_true sep)]

theorem splitOn_cons_of_ne {c : α} {v : List α} {vs : List (List α)} (hc : c ≠ sep)
    (h : s.splitOn sep = v :: vs) : (c :: s).splitOn sep = (c :: v) :: vs := by
  rw [List.splitOn_cons_eq_if_modifyHead, if_neg (by simpa using hc), h, List.modifyHead_cons]

theorem joined_splitOn (sep : α) (s : List α) : joined sep (s.splitOn sep) = s := by
  induction s with
  | nil => rfl
  | cons c s ih =>
      obtain ⟨v, vs, hs⟩ := exists_splitOn sep s
      rw [hs] at ih
      by_cases hc : c = sep
      · rw [hc, splitOn_cons_self, hs]
        exact congrArg (sep :: ·) ih
      · rw [splitOn_cons_of_ne hc hs]
        exact congrArg (c :: ·) ih

theorem not_mem_of_mem_splitOn (h : w ∈ s.splitOn sep) : sep ∉ w := by
  induction s generalizing w with
  | nil =>
      rw [List.mem_singleton.mp h]
      exact List.not_mem_nil
  | cons c s ih =>
      obtain ⟨v, vs, hs⟩ := exists_splitOn sep s
      by_cases hc : c = sep
      · rw [hc, splitOn_cons_self] at h
        rcases List.mem_cons.mp h with rfl | h
        · exact List.not_mem_nil
        · exact ih h
      · rw [splitOn_cons_of_ne hc hs] at h
        rw [hs] at ih
        rcases List.mem_cons.mp h with rfl | h
        · exact List.not_mem_cons_of_ne_of_not_mem (Ne.symm hc) (ih List.mem_cons_self)
        · exact ih (List.mem_cons_of_mem v h)

/-- The last word ends with the last element, if that is not a separator. -/
theorem getLast?_splitOn {c : α} (hc : c ≠ sep) (s : List α) :
    ∃ w, ((s ++ [c]).splitOn sep).getLast? = some w ∧ c ∈ w := by
  induction s with
  | nil =>
      rw [List.nil_append, splitOn_cons_of_ne hc (List.splitOn_nil sep)]
      exact ⟨[c], rfl, List.mem_singleton_self c⟩
  | cons a s ih =>
      obtain ⟨w, hw, hmem⟩ := ih
      obtain ⟨v, vs, hs⟩ := exists_splitOn sep (s ++ [c])
      rw [hs] at hw
      rw [List.cons_append]
      by_cases ha : a = sep
      · rw [ha, splitOn_cons_self, hs]
        exact ⟨w, hw, hmem⟩
      · rw [splitOn_cons_of_ne ha hs]
        cases vs with
        | nil =>
            cases hw
            exact ⟨a :: v, rfl, List.mem_cons_of_mem a hmem⟩
        | cons u us => exact ⟨w, hw, hmem⟩

/-! ## The end of a word -/

/-- What is left of a word. -/
theorem findIdx?_word (hw : sep ∉ w) :
    (w ++ preceded sep ws).findIdx? (· = sep) = if ws = [] then none else some w.length := by
  induction w with
  | nil => cases ws <;> simp [List.findIdx?_cons]
  | cons c w ih =>
      have hc : c ≠ sep := fun h => hw (h ▸ List.mem_cons_self)
      rw [List.cons_append, List.findIdx?_cons, if_neg (by simpa using hc),
        ih fun h => hw (List.mem_cons_of_mem c h)]
      split <;> simp

theorem wordEnd_word (hne : w ≠ []) (hw : sep ∉ w) :
    wordEnd sep (w ++ preceded sep ws) = if ws = [] then none else some w.length := by
  cases w with
  | nil => exact absurd rfl hne
  | cons c w =>
      have hc : c ≠ sep := fun h => hw (h ▸ List.mem_cons_self)
      rw [List.cons_append, wordEnd, if_neg hc,
        findIdx?_word fun h => hw (List.mem_cons_of_mem c h)]
      split <;> simp

/-- A word that ends behind the position, and is not empty. -/
theorem wordEnd_drop_word (hne : w ≠ []) (hw : sep ∉ w) (hd : d < w.length + 1) :
    (wordEnd sep ((preceded sep (w :: ws)).drop d)).map (d + ·) =
      if ws = [] then none else some (w.length + 1) := by
  rw [preceded_cons]
  cases d with
  | zero =>
      rw [List.drop_zero, List.cons_append, wordEnd, if_pos rfl, wordEnd_word hne hw]
      split <;> simp
  | succ d =>
      have hdrop : w.drop d ≠ [] := List.drop_eq_nil_iff.not.mpr (by omega)
      rw [List.cons_append, List.drop_succ_cons, List.drop_append_of_le_length (by omega),
        wordEnd_word hdrop fun h => hw (List.mem_of_mem_drop h), List.length_drop]
      split
      · rfl
      · rw [Option.map_some]
        congr 1
        omega

/-- **A scanner finds the cut.** -/
theorem wordEnd_drop (hws : ∀ w ∈ ws, sep ∉ w) (d : ℕ) :
    (wordEnd sep ((preceded sep ws).drop d)).map (d + ·) =
      (cut d (ws.map List.length)).map Prod.fst := by
  induction ws generalizing d with
  | nil => simp [wordEnd, cut]
  | cons w ws ih =>
      have hw := hws w List.mem_cons_self
      have ih := ih fun v hv => hws v (List.mem_cons_of_mem w hv)
      rw [List.map_cons]
      by_cases hcut : w.length ≠ 0 ∧ d < w.length + 1
      · have hne : w ≠ [] := fun h => hcut.1 (congrArg List.length h)
        rw [cut, if_pos hcut, wordEnd_drop_word hne hw hcut.2]
        simp only [List.map_eq_nil_iff]
        split <;> rfl
      · rw [cut, if_neg hcut, Option.map_map]
        have hshift := congrArg (Option.map (w.length + 1 + ·)) (ih (d - (w.length + 1)))
        rw [Option.map_map, Option.map_map] at hshift
        refine Eq.trans ?_ hshift
        by_cases hd : d < w.length + 1
        · -- only the separator of an empty word is left
          have hnil : w = [] := by
            by_contra hne
            exact hcut ⟨List.length_eq_zero_iff.not.mpr hne, hd⟩
          subst hnil
          have hzero : d = 0 := by simpa using hd
          subst hzero
          simp [preceded_cons, wordEnd, Function.comp_def, Nat.add_comm]
        · have hlong : (sep :: w).length ≤ d := by
            rw [List.length_cons]
            omega
          rw [preceded_cons, List.drop_append, List.drop_of_length_le hlong, List.nil_append,
            List.length_cons]
          refine congrArg (Option.map · _) (funext fun k => ?_)
          rw [Function.comp_apply]
          omega

end Words
