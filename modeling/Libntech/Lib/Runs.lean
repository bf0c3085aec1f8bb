import Mathlib.Data.List.Basic

/-! # Maximal runs between separators

`runsFrom` goes through a text once and collects where the runs without a separator begin and how long they are. They are
all the maximal ones (`mem_runs_iff`), in their order and apart from each other (`runs_apart`).
-/
namespace Libntech.Lib
set_option autoImplicit false

variable {α : Type*} (sep : α → Bool)

/-- The runs of the text that begins at `place`; `started` is where a run has begun that reaches up to there. -/
def runsFrom (place : ℕ) (started : Option ℕ) : List α → List (ℕ × ℕ)
  | [] => started.toList.map fun start => (start, place - start)
  | c :: text =>
    if sep c then (started.toList.map fun start => (start, place - start)) ++ runsFrom (place + 1) none text
    else runsFrom (place + 1) (some (started.getD place)) text

def runs (text : List α) : List (ℕ × ℕ) := runsFrom sep 0 none text

/-- A run without a separator, with a separator or an end of the text on both sides. -/
structure MaximalRun (text : List α) (start len : ℕ) : Prop where
  nonempty : 0 < len
  inside : start + len ≤ text.length
  free : ∀ i, start ≤ i → i < start + len → text[i]?.map sep = some false
  before : start = 0 ∨ text[start - 1]?.map sep = some true
  behind : start + len = text.length ∨ text[start + len]?.map sep = some true

/-- What is known when `place` is reached. -/
def Started (text : List α) (place : ℕ) : Option ℕ → Prop
  | none => place = 0 ∨ text[place - 1]?.map sep = some true
  | some start => start < place ∧ (start = 0 ∨ text[start - 1]?.map sep = some true) ∧
      ∀ i, start ≤ i → i < place → text[i]?.map sep = some false

variable {sep} {text : List α} {place start len : ℕ}

theorem Started.maximal_iff (h : Started sep text place (some start)) (hplace : place ≤ text.length)
    (hend : place = text.length ∨ text[place]?.map sep = some true) : MaximalRun sep text start len ↔ len = place - start := by
  obtain ⟨hlt, hbefore, hfree⟩ := h
  constructor
  · intro hrun
    have hinside := hrun.inside
    obtain hshort | hsame | hlong := Nat.lt_trichotomy (start + len) place
    · have hnot := hfree (start + len) (by omega) hshort
      rcases hrun.behind with hlast | hsep
      · omega
      · rw [hnot] at hsep
        cases hsep
    · omega
    · have hnot := hrun.free place (by omega) hlong
      rcases hend with hlast | hsep
      · omega
      · rw [hnot] at hsep
        cases hsep
  · rintro rfl
    have hsum : start + (place - start) = place := by omega
    refine ⟨by omega, by omega, fun i hi hlast => hfree i hi (by omega), hbefore, ?_⟩
    rwa [hsum]

variable {started : Option ℕ}

/-- Where a run that has begun ends, it is the one that is collected. -/
theorem Started.mem_ended_iff (h : Started sep text place started) (hplace : place ≤ text.length)
    (hend : place = text.length ∨ text[place]?.map sep = some true) :
    (start, len) ∈ started.toList.map (fun first => (first, place - first)) ↔
      MaximalRun sep text start len ∧ started = some start := by
  cases started with
  | none => simp
  | some first =>
    simp only [Option.toList_some, List.map_cons, List.map_nil, List.mem_singleton, Prod.mk.injEq, Option.some.injEq]
    constructor
    · rintro ⟨rfl, rfl⟩
      exact ⟨(h.maximal_iff hplace hend).mpr rfl, rfl⟩
    · rintro ⟨hrun, rfl⟩
      exact ⟨rfl, (h.maximal_iff hplace hend).mp hrun⟩

theorem Started.next (h : Started sep text place started) (hat : text[place]?.map sep = some false) :
    Started sep text (place + 1) (some (started.getD place)) := by
  cases started with
  | none =>
    refine ⟨Nat.lt_succ_self place, h, fun i hi hlast => ?_⟩
    obtain rfl : place = i := by
      rw [Option.getD_none] at hi
      omega
    exact hat
  | some first =>
    obtain ⟨hfirst, hbefore, hfree⟩ := h
    refine ⟨Nat.lt_succ_of_lt hfirst, hbefore, fun i hi hlast => ?_⟩
    obtain hi' | rfl := Nat.lt_succ_iff_lt_or_eq.mp hlast
    · exact hfree i hi hi'
    · exact hat

theorem MaximalRun.ne_separator (hrun : MaximalRun sep text start len) (hat : text[place]?.map sep = some true) :
    place ≠ start := by
  rintro rfl
  have hpos := hrun.nonempty
  rw [hrun.free place (Nat.le_refl _) (by omega)] at hat
  cases hat

theorem MaximalRun.ne_started {first : ℕ} (hrun : MaximalRun sep text start len)
    (h : Started sep text place (some first)) : place ≠ start := by
  obtain ⟨hfirst, -, hfree⟩ := h
  rintro rfl
  have hnot := hfree (place - 1) (by omega) (by omega)
  rcases hrun.before with hzero | hbefore
  · omega
  · rw [hnot] at hbefore
    cases hbefore

theorem mem_runsFrom_iff (hplace : place ≤ text.length) (h : Started sep text place started) :
    (start, len) ∈ runsFrom sep place started (text.drop place) ↔
      MaximalRun sep text start len ∧ (place ≤ start ∨ started = some start) := by
  generalize hrest : text.drop place = rest
  induction rest generalizing place started with
  | nil =>
    have hlast : place = text.length := Nat.le_antisymm hplace (List.drop_eq_nil_iff.mp hrest)
    rw [runsFrom, h.mem_ended_iff hplace (.inl hlast)]
    refine and_congr_right fun hrun => ?_
    have hpos := hrun.nonempty
    have hinside := hrun.inside
    exact (or_iff_right (by omega)).symm
  | cons c rest ih =>
    have hlt : place < text.length := by
      have hlen := congrArg List.length hrest
      rw [List.length_drop, List.length_cons] at hlen
      omega
    have hat : text[place]?.map sep = some (sep c) := by
      have hhead := congrArg List.head? hrest
      rw [List.head?_drop, List.head?_cons] at hhead
      rw [hhead, Option.map_some]
    have hnext : text.drop (place + 1) = rest := by rw [← List.drop_drop, hrest, List.drop_one, List.tail_cons]
    unfold runsFrom
    cases hsep : sep c with
    | true =>
      rw [hsep] at hat
      have hnone : Started sep text (place + 1) none := .inr hat
      rw [if_pos rfl, List.mem_append, h.mem_ended_iff hplace (.inr hat), ih hlt hnone hnext, ← and_or_left]
      refine and_congr_right fun hrun => ?_
      have hne := hrun.ne_separator hat
      simp only [reduceCtorEq, or_false]
      rw [or_comm, Nat.succ_le_iff, Nat.le_iff_lt_or_eq, or_iff_left hne]
    | false =>
      rw [hsep] at hat
      rw [if_neg (by decide), ih hlt (h.next hat) hnext]
      refine and_congr_right fun hrun => ?_
      cases started with
      | none =>
        simp only [Option.getD_none, Option.some.injEq, reduceCtorEq, or_false]
        omega
      | some first =>
        have hne := hrun.ne_started h
        simp only [Option.getD_some, Option.some.injEq]
        omega

theorem mem_runs_iff : (start, len) ∈ runs sep text ↔ MaximalRun sep text start len := by
  have h : (start, len) ∈ runsFrom sep 0 none (text.drop 0) ↔ _ := mem_runsFrom_iff (Nat.zero_le _) (.inl rfl)
  rw [List.drop_zero] at h
  rw [runs, h, and_iff_left (.inl (Nat.zero_le start))]

theorem runsFrom_start {r : ℕ × ℕ} (h : r ∈ runsFrom sep place started text) :
    place ≤ r.1 ∨ started = some r.1 := by
  induction text generalizing place started with
  | nil =>
    cases started with
    | none => cases h
    | some first =>
      obtain rfl := List.mem_singleton.mp h
      exact .inr rfl
  | cons c text ih =>
    unfold runsFrom at h
    split at h
    · obtain h | h := List.mem_append.mp h
      · cases started with
        | none => cases h
        | some first =>
          obtain rfl := List.mem_singleton.mp h
          exact .inr rfl
      · obtain hle | hnone := ih h
        · exact .inl (Nat.le_of_succ_le hle)
        · cases hnone
    · obtain hle | hsome := ih h
      · exact .inl (Nat.le_of_succ_le hle)
      · cases started with
        | none => exact .inl (Nat.le_of_eq (Option.some.inj hsome))
        | some first => exact .inr hsome

theorem runsFrom_apart (hstarted : ∀ s, started = some s → s ≤ place) :
    (runsFrom sep place started text).Pairwise fun a b => a.1 + a.2 < b.1 := by
  induction text generalizing place started with
  | nil =>
    cases started with
    | none => exact List.Pairwise.nil
    | some first => exact List.pairwise_singleton _ _
  | cons c text ih =>
    unfold runsFrom
    split
    · have hrest := @ih (place + 1) none (by simp)
      cases started with
      | none => exact hrest
      | some first =>
        refine List.pairwise_cons.mpr ⟨fun r hr => ?_, hrest⟩
        have hle := hstarted first rfl
        obtain hlater | hnone := runsFrom_start hr
        · show first + (place - first) < r.1
          omega
        · cases hnone
    · refine ih fun s hs => ?_
      cases started with
      | none => exact Nat.le_succ_of_le (Nat.le_of_eq (Option.some.inj hs).symm)
      | some first => exact Nat.le_succ_of_le (hstarted s hs)

theorem runs_apart : (runs sep text).Pairwise fun a b => a.1 + a.2 < b.1 := runsFrom_apart (by simp)

/-! ## Going on behind a run -/

theorem runsFrom_cons {tail : List (ℕ × ℕ)} (hstarted : ∀ s, started = some s → s ≤ place)
    (h : runsFrom sep place started text = (start, len) :: tail) : place ≤ start + len ∧ start + len ≤ place + text.length ∧
      runsFrom sep (start + len) none (text.drop (start + len - place)) = tail := by
  induction text generalizing place started with
  | nil =>
    cases started with
    | none => cases h
    | some first =>
      have hle := hstarted first rfl
      simp only [runsFrom, Option.toList_some, List.map_cons, List.map_nil, List.cons.injEq, Prod.mk.injEq] at h
      obtain ⟨⟨rfl, rfl⟩, rfl⟩ := h
      rw [List.drop_nil]
      exact ⟨by omega, by omega, rfl⟩
  | cons c text ih =>
    have hgo {place' : ℕ} (hplace : place + 1 ≤ place') :
        (c :: text).drop (place' - place) = text.drop (place' - (place + 1)) := by
      obtain ⟨k, rfl⟩ := Nat.exists_eq_add_of_le hplace
      have hsplit : place + 1 + k - place = k + 1 := by omega
      rw [hsplit, List.drop_succ_cons, Nat.add_sub_cancel_left]
    rw [List.length_cons]
    unfold runsFrom at h
    split at h
    next hsep =>
      cases started with
      | none =>
        obtain ⟨hle, hinside, hrest⟩ := ih (by simp) h
        exact ⟨by omega, by omega, by rw [hgo hle, hrest]⟩
      | some first =>
        have hle := hstarted first rfl
        simp only [Option.toList_some, List.map_cons, List.map_nil, List.cons_append, List.nil_append, List.cons.injEq,
          Prod.mk.injEq] at h
        obtain ⟨⟨rfl, rfl⟩, rfl⟩ := h
        have hsum : first + (place - first) = place := by omega
        rw [hsum, Nat.sub_self, List.drop_zero, runsFrom, if_pos hsep]
        exact ⟨Nat.le_refl _, by omega, rfl⟩
    next hsep =>
      obtain ⟨hle, hinside, hrest⟩ := ih (fun s hs => by
        cases started with
        | none => exact Nat.le_succ_of_le (Nat.le_of_eq (Option.some.inj hs).symm)
        | some first => exact Nat.le_succ_of_le (hstarted s hs)) h
      exact ⟨by omega, by omega, by rw [hgo hle, hrest]⟩

theorem runsFrom_shift (d place : ℕ) (started : Option ℕ) (text : List α) :
    runsFrom sep (d + place) (started.map (d + ·)) text = (runsFrom sep place started text).map fun r => (d + r.1, r.2) := by
  have hfirst (place : ℕ) (started : Option ℕ) : ((started.map (d + ·)).toList.map fun start => (start, d + place - start)) =
      (started.toList.map fun start => (start, place - start)).map fun r => (d + r.1, r.2) := by
    cases started with
    | none => rfl
    | some first =>
      simp only [Option.map_some, Option.toList_some, List.map_cons, List.map_nil]
      rw [Nat.add_sub_add_left]
  induction text generalizing place started with
  | nil => exact hfirst place started
  | cons c text ih =>
    unfold runsFrom
    split
    · have hrest := ih (place + 1) none
      rw [Option.map_none] at hrest
      rw [hfirst, List.map_append, Nat.add_assoc, hrest]
    · have hrest := ih (place + 1) (some (started.getD place))
      have hsame : (started.map (d + ·)).getD (d + place) = d + started.getD place := by
        cases started with
        | none => rfl
        | some first => rfl
      rw [Option.map_some] at hrest
      rw [hsame, Nat.add_assoc, hrest]

end Libntech.Lib
