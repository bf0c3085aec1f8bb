import Mathlib.Data.List.Infix

/-! # A list cut at the occurrences of another

`pieces find n s` cuts `s` at the first `n` occurrences of `find`, from the left and without overlap; what stands between
two of them is one piece. Joined with another list in their place, the pieces are `s` with the occurrences replaced.
-/
namespace Libntech.Lib
set_option autoImplicit false

variable {α : Type} [DecidableEq α]

def pieces (find : List α) : ℕ → List α → List (List α)
  | 0, s => [s]
  | _ + 1, [] => [[]]
  | n + 1, c :: s =>
    if find.isPrefixOf (c :: s) then [] :: pieces find n (s.drop (find.length - 1))
    else (pieces find (n + 1) s).modifyHead (c :: ·)
termination_by n s => (n, s.length)

/-- The first `n` occurrences replaced. What was put in is not looked at again. -/
def replaceFirst (find replace : List α) (n : ℕ) (s : List α) : List α := replace.intercalate (pieces find n s)

/-- Each occurrence replaced. -/
def replaceAll (find replace s : List α) : List α := replaceFirst find replace s.length s

/-- What is left behind the last occurrence. -/
def lastPiece (find s : List α) : List α := (pieces find s.length s).getLastD []

section Pieces

variable {find : List α}

attribute [local simp] pieces

theorem pieces_ne_nil (n : ℕ) (s : List α) : pieces find n s ≠ [] := by
  fun_induction pieces find n s with
  | case1 s => simp
  | case2 n => simp
  | case3 n c s hfind ih => simp
  | case4 n c s hfind ih => simpa using ih

@[simp] theorem pieces_zero (s : List α) : pieces find 0 s = [s] := by simp

theorem pieces_apart (n : ℕ) {s : List α} (h : ¬ find <:+: s) : pieces find n s = [s] := by
  fun_induction pieces find n s with
  | case1 s => rfl
  | case2 n => rfl
  | case3 n c s hfind ih => exact absurd (List.isPrefixOf_iff_prefix.mp hfind).isInfix h
  | case4 n c s hfind ih =>
    have hrest : ¬ find <:+: s := fun hinside => h (hinside.trans (List.suffix_cons c s).isInfix)
    rw [ih hrest]
    rfl

/-- The piece in front of the first occurrence, and the pieces behind it. -/
theorem pieces_found (hne : find ≠ []) (n : ℕ) (front rest : List α)
    (hfirst : ∀ k < front.length, ¬ find <+: (front ++ (find ++ rest)).drop k) :
    pieces find (n + 1) (front ++ (find ++ rest)) = front :: pieces find n rest := by
  induction front with
  | nil =>
    cases find with
    | nil => exact absurd rfl hne
    | cons a find =>
      have hfound : (a :: find).isPrefixOf (a :: (find ++ rest)) = true :=
        List.isPrefixOf_iff_prefix.mpr (List.prefix_append (a :: find) rest)
      simp only [List.nil_append, List.cons_append, pieces, hfound, if_true, List.length_cons, Nat.add_sub_cancel,
        List.drop_left]
  | cons c front ih =>
    have hhead : ¬ find.isPrefixOf (c :: (front ++ (find ++ rest))) = true := by
      rw [List.isPrefixOf_iff_prefix]
      exact hfirst 0 (Nat.succ_pos _)
    have htail := ih fun k hk => hfirst (k + 1) (Nat.succ_lt_succ hk)
    rw [List.cons_append, pieces, if_neg hhead, htail]
    rfl

theorem pieces_saturate (hne : find ≠ []) (k : ℕ) (s : List α) : pieces find (s.length + k) s = pieces find s.length s := by
  have h : ∀ n, s.length ≤ n → pieces find (n + k) s = pieces find n s := by
    intro n
    fun_induction pieces find n s with
    | case1 s =>
      intro h
      obtain rfl := List.length_eq_zero_iff.mp (Nat.le_zero.mp h)
      exact pieces_apart _ fun hinfix => hne (List.infix_nil.mp hinfix)
    | case2 n =>
      intro _
      exact pieces_apart _ fun hinfix => hne (List.infix_nil.mp hinfix)
    | case3 n c s hfind ih =>
      intro h
      rw [List.length_cons] at h
      rw [Nat.succ_add, pieces, if_pos hfind, ih (by rw [List.length_drop]; omega)]
    | case4 n c s hfind ih =>
      intro h
      rw [List.length_cons] at h
      rw [Nat.succ_add] at ih ⊢
      rw [pieces, if_neg hfind, ih (by omega)]
  exact h s.length (Nat.le_refl _)

theorem pieces_all (hne : find ≠ []) {n : ℕ} {s : List α} (h : s.length ≤ n) :
    pieces find n s = pieces find s.length s := by
  obtain ⟨k, rfl⟩ := Nat.exists_eq_add_of_le h
  exact pieces_saturate hne k s

theorem pieces_all_found (hne : find ≠ []) (front rest : List α)
    (hfirst : ∀ k < front.length, ¬ find <+: (front ++ (find ++ rest)).drop k) :
    pieces find (front ++ (find ++ rest)).length (front ++ (find ++ rest)) = front :: pieces find rest.length rest := by
  have hlen := List.length_pos_iff.mpr hne
  obtain ⟨n, hn⟩ : ∃ n, (front ++ (find ++ rest)).length = n + 1 := Nat.exists_eq_succ_of_ne_zero (by simp [hne])
  rw [hn, pieces_found hne n front rest hfirst]
  simp only [List.length_append] at hn
  rw [pieces_all hne (by omega)]

end Pieces

section Replacing

variable {find replace : List α}

@[simp] theorem replaceFirst_zero (s : List α) : replaceFirst find replace 0 s = s := by simp [replaceFirst]

theorem replaceFirst_apart (n : ℕ) {s : List α} (h : ¬ find <:+: s) : replaceFirst find replace n s = s := by
  simp [replaceFirst, pieces_apart n h]

theorem replaceFirst_found (hne : find ≠ []) (n : ℕ) (front rest : List α)
    (hfirst : ∀ k < front.length, ¬ find <+: (front ++ (find ++ rest)).drop k) :
    replaceFirst find replace (n + 1) (front ++ (find ++ rest)) =
      front ++ (replace ++ replaceFirst find replace n rest) := by
  rw [replaceFirst, pieces_found hne n front rest hfirst]
  obtain ⟨piece, behind, hpieces⟩ := List.exists_cons_of_ne_nil (pieces_ne_nil n rest : pieces find n rest ≠ [])
  simp [replaceFirst, hpieces, List.intercalate]

theorem replaceFirst_all (hne : find ≠ []) {n : ℕ} {s : List α} (h : s.length ≤ n) :
    replaceFirst find replace n s = replaceAll find replace s := by
  rw [replaceFirst, pieces_all hne h]
  rfl

theorem replaceAll_apart {s : List α} (h : ¬ find <:+: s) : replaceAll find replace s = s := replaceFirst_apart _ h

theorem replaceAll_found (hne : find ≠ []) (front rest : List α)
    (hfirst : ∀ k < front.length, ¬ find <+: (front ++ (find ++ rest)).drop k) :
    replaceAll find replace (front ++ (find ++ rest)) = front ++ (replace ++ replaceAll find replace rest) := by
  have hfound : _ = front ++ (replace ++ replaceFirst find replace rest.length rest) :=
    replaceFirst_found hne rest.length front rest hfirst
  rw [replaceAll, replaceFirst, pieces_all_found hne front rest hfirst, ← pieces_found hne rest.length front rest hfirst]
  exact hfound

theorem lastPiece_apart {s : List α} (h : ¬ find <:+: s) : lastPiece find s = s := by simp [lastPiece, pieces_apart _ h]

theorem lastPiece_found (hne : find ≠ []) (front rest : List α)
    (hfirst : ∀ k < front.length, ¬ find <+: (front ++ (find ++ rest)).drop k) :
    lastPiece find (front ++ (find ++ rest)) = lastPiece find rest := by
  obtain ⟨piece, behind, hpieces⟩ :=
    List.exists_cons_of_ne_nil (pieces_ne_nil rest.length rest : pieces find rest.length rest ≠ [])
  rw [lastPiece, pieces_all_found hne front rest hfirst, lastPiece, hpieces]
  simp

end Replacing

end Libntech.Lib
