/-!
# Searching

Most searches of this library ask where the first rest of a list begins that has some property: a
name, a keyword, a separator. `first?` answers them all, and `first?_eq_some_iff` says that the
answer is the least such position. `firstAfter?` begins the search at a later position.
-/

namespace Stencil.Search

variable {α β : Type}

/-! ### The first rest with a property

`firstFrom` counts positions as it drops elements, so that long lists take no stack. -/

/-- The position, counted from `i`, of the first rest of a list that has the property. -/
@[specialize] def firstFrom (p : List α → Bool) (i : Nat) : List α → Option Nat
  | [] => if p [] then some i else none
  | c :: cs => if p (c :: cs) then some i else firstFrom p (i + 1) cs

/-- The position of the first rest of a list that has the property. -/
@[inline] def first? (p : List α → Bool) (t : List α) : Option Nat := firstFrom p 0 t

/-- The search gives the least position at which the property holds, counted on from where it
began. -/
theorem firstFrom_eq_some_iff {p : List α → Bool} {t : List α} {i k : Nat} :
    firstFrom p i t = some k ↔
      ∃ n, k = i + n ∧ n ≤ t.length ∧ p (t.drop n) = true ∧ ∀ m < n, p (t.drop m) = false := by
  induction t generalizing i with
  -- only the empty rest is left
  | nil =>
    constructor
    · intro h
      simp only [firstFrom] at h
      split at h
      · next hp => exact ⟨0, by simpa using h.symm, by simp, by simpa using hp, by simp⟩
      · simp at h
    · rintro ⟨n, rfl, hn, hp, -⟩
      obtain rfl : n = 0 := by simpa using hn
      simp_all [firstFrom]
  | cons c cs ih =>
    simp only [firstFrom]
    -- the property holds at once, or the position is one of the rest
    by_cases hp : p (c :: cs) = true
    · rw [if_pos hp]
      constructor
      · intro h
        exact ⟨0, by simpa using h.symm, by simp, by simpa using hp, by simp⟩
      · rintro ⟨n, rfl, -, -, hlt⟩
        cases n with
        | zero => rfl
        | succ n => simpa [hp] using hlt 0 (by omega)
    · rw [if_neg hp, ih]
      constructor
      · rintro ⟨n, rfl, hn, hpn, hlt⟩
        refine ⟨n + 1, by omega, by simpa using hn, by simpa using hpn, ?_⟩
        intro m hm
        cases m with
        | zero => simpa using hp
        | succ m => simpa using hlt m (by omega)
      · rintro ⟨n, rfl, hn, hpn, hlt⟩
        cases n with
        | zero => exact absurd hpn (by simpa using hp)
        | succ n =>
          refine ⟨n, by omega, by simpa using hn, by simpa using hpn, ?_⟩
          intro m hm
          simpa using hlt (m + 1) (by omega)

/-- Where counting begins shifts the answer. -/
theorem firstFrom_eq_map {p : List α → Bool} {t : List α} {i : Nat} :
    firstFrom p i t = (first? p t).map (i + ·) := by
  have shift : ∀ j, firstFrom p (i + j) t = (firstFrom p j t).map (i + ·) := by
    induction t with
    | nil => intro j; simp only [firstFrom]; split <;> rfl
    | cons c cs ih =>
      intro j
      simp only [firstFrom]
      split
      · rfl
      · exact ih (j + 1)
  exact shift 0

/-- The answer is the least position whose rest has the property. -/
theorem first?_eq_some_iff {p : List α → Bool} {t : List α} {n : Nat} :
    first? p t = some n ↔
      n ≤ t.length ∧ p (t.drop n) = true ∧ ∀ m < n, p (t.drop m) = false := by
  simp only [first?, firstFrom_eq_some_iff, Nat.zero_add]
  constructor
  · rintro ⟨_, rfl, h⟩
    exact h
  · intro h
    exact ⟨n, rfl, h⟩

/-- The first position at or after `start` whose rest has the property. -/
@[inline] def firstAfter? (p : List α → Bool) (t : List α) (start : Nat) : Option Nat :=
  let rest := t.drop start
  if rest.isEmpty && t.length < start then none else (first? p rest).map (start + ·)

/-- A search from a later position is one of what is left there, if the position is in the
list. -/
theorem firstAfter?_eq_ite (p : List α → Bool) (t : List α) (start : Nat) :
    firstAfter? p t start =
      if start ≤ t.length then (first? p (t.drop start)).map (start + ·) else none := by
  unfold firstAfter?
  by_cases hs : start ≤ t.length
  · have hin : ¬ t.length < start := by omega
    simp [hs, hin]
  · have hnil : t.drop start = [] := List.drop_of_length_le (by omega)
    have hout : t.length < start := by omega
    simp [hs, hnil, hout]

/-- The position that is found is the least one from the start on. -/
theorem firstAfter?_eq_some_iff {p : List α → Bool} {t : List α} {start n : Nat} :
    firstAfter? p t start = some n ↔
      start ≤ n ∧ n ≤ t.length ∧ p (t.drop n) = true ∧
        ∀ m, start ≤ m → m < n → p (t.drop m) = false := by
  rw [firstAfter?_eq_ite]
  split
  · next hs =>
    simp only [Option.map_eq_some_iff, first?_eq_some_iff, List.length_drop, List.drop_drop]
    constructor
    · rintro ⟨k, ⟨hk, hp, hlt⟩, rfl⟩
      refine ⟨by omega, by omega, hp, ?_⟩
      intro m hsm hm
      have := hlt (m - start) (by omega)
      rwa [Nat.add_sub_cancel' hsm] at this
    · rintro ⟨hsn, hn, hp, hlt⟩
      refine ⟨n - start, ⟨by omega, by rwa [Nat.add_sub_cancel' hsn], ?_⟩, by omega⟩
      intro m hm
      exact hlt (start + m) (by omega) (by omega)
  · next hs =>
    constructor
    · simp
    · rintro ⟨hsn, hn, -⟩
      omega

/-! ### Heads up to a likeness of elements -/

/-- Whether the list begins with the pattern, element by element up to `alike`. -/
@[specialize] def startsBy (alike : α → β → Bool) : List α → List β → Bool
  | [], _ => true
  | _ :: _, [] => false
  | p :: ps, c :: cs => alike p c && startsBy alike ps cs

/-- A list that begins with another one is not shorter. -/
theorem startsBy_length_le {alike : α → β → Bool} {p : List α} {t : List β}
    (h : startsBy alike p t = true) : p.length ≤ t.length := by
  induction p generalizing t with
  | nil => simp
  | cons a p ih =>
    cases t with
    | nil => simp [startsBy] at h
    | cons b t =>
      simp only [startsBy, Bool.and_eq_true] at h
      simpa using ih h.2

/-- A longer list begins with whatever a shorter one does. -/
theorem startsBy_append {alike : α → β → Bool} {p : List α} {t : List β} (r : List β)
    (h : startsBy alike p t = true) : startsBy alike p (t ++ r) = true := by
  induction p generalizing t with
  | nil => simp [startsBy]
  | cons a p ih =>
    cases t with
    | nil => simp [startsBy] at h
    | cons b t =>
      simp only [startsBy, Bool.and_eq_true] at h
      simp [startsBy, h.1, ih h.2]

end Stencil.Search
