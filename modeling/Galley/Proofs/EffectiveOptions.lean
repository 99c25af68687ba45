import Galley.Diagram.Layout
import Mathlib.Data.List.Basic
/-!
# Options in effect

Of the options with one key the last is in effect, and `lastPlace?` says where it stands. The options added for a
compact, medium or wide diagram have keys that the author did not use (`fresh_intentOptions`), so the author's
options stay in effect. The larger unit vectors for long labels are an exception: they are added whenever the author
sets no `x`, and so override a `y` that the author sets alone (`synthesize_keeps_effect_iff`).
-/

namespace Galley.Diagram

variable {own added : List Text} {k : Text}

/-! ## The last option with a key -/

/-- Where the last option with a key stands. -/
def lastPlace? (k : Text) : List Text → Option Nat
  | [] => none
  | o :: options =>
    match lastPlace? k options with
    | some n => some (n + 1)
    | none => if key o = k then some 0 else none

theorem has_eq_false_iff : has own k = false ↔ ∀ o ∈ own, key o ≠ k := by
  simp [has]

theorem lastPlace?_eq_none_iff : lastPlace? k own = none ↔ has own k = false := by
  rw [has_eq_false_iff]
  induction own with
  | nil => simp [lastPlace?]
  | cons o own ih =>
    rw [List.forall_mem_cons, ← ih, lastPlace?]
    cases lastPlace? k own with
    | some n => simp
    | none => by_cases hkey : key o = k <;> simp [hkey]

theorem lastPlace?_lt {n : Nat} (h : lastPlace? k own = some n) : n < own.length := by
  induction own generalizing n with
  | nil => cases h
  | cons o own ih =>
    rw [lastPlace?] at h
    rw [List.length_cons]
    cases hlast : lastPlace? k own with
    | some m =>
      rw [hlast] at h
      obtain rfl := Option.some.inj h
      have := ih hlast
      omega
    | none =>
      rw [hlast] at h
      by_cases hkey : key o = k
      · simp only [hkey, if_true, Option.some.injEq] at h
        omega
      · simp [hkey] at h

theorem lastPlace?_append (k : Text) (own added : List Text) :
    lastPlace? k (own ++ added) = ((lastPlace? k added).map (own.length + ·)).or (lastPlace? k own) := by
  induction own with
  | nil => cases h : lastPlace? k added <;> simp [lastPlace?, h]
  | cons o own ih =>
    rw [List.cons_append, lastPlace?, ih, lastPlace?, List.length_cons]
    cases lastPlace? k added with
    | some n => simp [Nat.add_right_comm]
    | none => rfl

/-- Further options leave the last one with a key where it is just if none of them has the key. -/
theorem lastPlace?_append_eq_iff : lastPlace? k (own ++ added) = lastPlace? k own ↔ has added k = false := by
  rw [lastPlace?_append, ← lastPlace?_eq_none_iff]
  cases hadded : lastPlace? k added with
  | none => simp
  | some n =>
    have hne : lastPlace? k own ≠ some (own.length + n) := fun h => by
      have := lastPlace?_lt h
      omega
    simpa using hne.symm

theorem value?_append (h : has added k = false) : value? (own ++ added) k = value? own k := by
  have hnone : added.filter (key · = k) = [] := by
    rw [List.filter_eq_nil_iff]
    simpa using has_eq_false_iff.1 h
  rw [value?, value?, List.filter_append, hnone, List.append_nil]

theorem has_append (k : Text) (own added : List Text) : has (own ++ added) k = (has own k || has added k) := List.any_append

/-! ## Keys of the added options -/

/-- The options have keys that the author did not use, and set no unit vectors. -/
def Fresh (own added : List Text) : Prop := ∀ o ∈ added, has own (key o) = false ∧ key o ∉ [['x'], ['y']]

namespace Fresh

theorem append {more : List Text} (h : Fresh own added) (hm : Fresh own more) : Fresh own (added ++ more) := by
  intro o ho
  exact (List.mem_append.1 ho).elim (h o) (hm o)

theorem given {b : Bool} {o : Text} (ho : key o ∉ [['x'], ['y']]) (h : b = true → has own (key o) = false) :
    Fresh own (given b [o]) := by
  intro o' ho'
  cases b with
  | false => cases ho'
  | true =>
    obtain rfl := List.mem_singleton.1 ho'
    exact ⟨h rfl, ho⟩

/-- An added option with a key of the author's would not be fresh. -/
theorem has_eq_false (h : Fresh own added) (hk : has own k = true ∨ k ∈ [['x'], ['y']]) : has added k = false := by
  rw [has_eq_false_iff]
  rintro o ho rfl
  obtain ⟨hown, hunit⟩ := h o ho
  rcases hk with hk | hk
  · rw [hown] at hk
    cases hk
  · exact hunit hk

end Fresh

theorem key_scale (v : Text) : key ("scale=".toList ++ v) = "scale".toList := rfl

theorem key_distance (v : Text) : key ("node distance=".toList ++ v) = "node distance".toList := rfl

theorem key_distanceOption (cm : Float) : key (distanceOption cm) = "node distance".toList := by
  have h : distanceOption cm = "node distance=".toList ++ (short cm ++ "cm".toList) := List.append_assoc _ _ _
  rw [h, key_distance]

theorem key_transformShape : key transformShape = transformShape := by decide

variable (c : Calibration) (s : Signals)

theorem fresh_scale {b : Bool} (h : b = true → has own "scale" = false) (v : Text) :
    Fresh own (given b ["scale=".toList ++ v]) :=
  .given (by rw [key_scale]; decide) (by rwa [key_scale])

theorem fresh_transformShape {b : Bool} (h : b = true → has own transformShape = false) :
    Fresh own (given b [transformShape]) :=
  .given (by decide) (by rwa [key_transformShape])

theorem fresh_distance {b : Bool} (h : b = true → has own "node distance" = false) (cm : Float) :
    Fresh own (given b [distanceOption cm]) :=
  .given (by rw [key_distanceOption]; decide) (by rwa [key_distanceOption])

theorem fresh_compactOptions (own : List Text) : Fresh own (compactOptions c s own) :=
  ((fresh_scale (by simp) _).append (fresh_transformShape (by simp))).append (fresh_distance (by simp) _)

theorem fresh_wideOptions (own : List Text) : Fresh own (wideOptions c s own) :=
  (fresh_scale (by simp) _).append (fresh_transformShape (by simp))

theorem fresh_mediumOptions (own : List Text) : Fresh own (mediumOptions c s own) :=
  ((fresh_scale (by simp +contextual) _).append (fresh_transformShape (by simp +contextual))).append
    (fresh_distance (by simp) _)

/-- What is added for these classes, long labels apart, is fresh, and all of the author's options are kept. -/
theorem fresh_intentOptions {intent : Intent} (hi : intent ∈ [Intent.compact, .medium, .wide]) (own : List Text) :
    ∃ added, intentOptions c intent s own = (own, added) ∧ Fresh own added := by
  simp only [List.mem_cons, List.not_mem_nil, or_false] at hi
  rcases hi with rfl | rfl | rfl
  · exact ⟨_, rfl, fresh_compactOptions c s own⟩
  · exact ⟨_, rfl, fresh_mediumOptions c s own⟩
  · exact ⟨_, rfl, fresh_wideOptions c s own⟩

/-! ## The merged options -/

/-- The unit vectors that are added for long labels. -/
def labelUnits : List Text :=
  ["x=".toList ++ short c.textHeavyXCm ++ "cm", "y=".toList ++ short c.textHeavyYCm ++ "cm"]

theorem key_unit {k : Text} (hk : k ∈ [['x'], ['y']]) (v : Text) : key (k ++ '=' :: v) = k := by
  simp only [List.mem_cons, List.not_mem_nil, or_false] at hk
  rcases hk with rfl | rfl <;> rfl

theorem key_labelUnits : (labelUnits c).map key = [['x'], ['y']] := by
  have hunits : labelUnits c = [['x'] ++ '=' :: (short c.textHeavyXCm ++ "cm".toList),
      ['y'] ++ '=' :: (short c.textHeavyYCm ++ "cm".toList)] := rfl
  rw [hunits, List.map_cons, List.map_cons, key_unit (by decide), key_unit (by decide), List.map_nil]

theorem has_labelUnits (k : Text) : has (labelUnits c) k = true ↔ k ∈ [['x'], ['y']] := by
  rw [← key_labelUnits c]
  simp [has]

/-- Long labels in a diagram without coordinates, where the author sets no `x`. -/
def needsUnits (own : List Text) : Bool := s.textHeavy c && s.lacksCoordinates && !has own ['x']

theorem synthesize_eq {intent : Intent} (hi : intent ∈ [Intent.compact, .medium, .wide]) (own : List Text) :
    ∃ added, synthesize c intent s own = own ++ (added ++ given (needsUnits c s own) (labelUnits c)) ∧ Fresh own added := by
  obtain ⟨added, heq, hfresh⟩ := fresh_intentOptions c s hi own
  refine ⟨added, ?_, hfresh⟩
  have hlarge : decide (intent ≠ .large) = true := by
    simp only [List.mem_cons, List.not_mem_nil, or_false] at hi
    rcases hi with rfl | rfl | rfl <;> rfl
  have hx : has (own ++ added) ['x'] = has own ['x'] := by
    rw [has_append, hfresh.has_eq_false (.inr (by decide)), Bool.or_false]
  rw [synthesize, heq]
  simp only [hlarge, hx, Bool.and_true, List.append_assoc]
  rfl

/-- For a compact, medium or wide diagram the author's options are kept as they are, with options added behind them.
    An option of the author's that is in effect stays so, and with it its value, unless it sets the `y` vector, the
    diagram has long labels and no coordinates, and the author sets no `x` vector. -/
theorem synthesize_keeps_effect_iff {intent : Intent} (hi : intent ∈ [Intent.compact, .medium, .wide]) (own : List Text) :
    own <+: synthesize c intent s own ∧
      ∀ k, has own k = true →
        (lastPlace? k (synthesize c intent s own) = lastPlace? k own ↔
          ¬(k = ['y'] ∧ s.textHeavy c = true ∧ s.lacksCoordinates = true ∧ has own ['x'] = false)) ∧
        (lastPlace? k (synthesize c intent s own) = lastPlace? k own →
          value? (synthesize c intent s own) k = value? own k) := by
  obtain ⟨added, heq, hfresh⟩ := synthesize_eq c s hi own
  rw [heq]
  refine ⟨List.prefix_append _ _, fun k hk => ⟨?_, fun h => value?_append (lastPlace?_append_eq_iff.1 h)⟩⟩
  rw [lastPlace?_append_eq_iff, has_append, hfresh.has_eq_false (.inl hk), Bool.false_or]
  have hunits : has (given (needsUnits c s own) (labelUnits c)) k = true ↔
      needsUnits c s own = true ∧ k ∈ [['x'], ['y']] := by
    cases needsUnits c s own with
    | false => simp [given, has]
    | true => simpa [given] using has_labelUnits c k
  have hneeds : needsUnits c s own = true ↔
      s.textHeavy c = true ∧ s.lacksCoordinates = true ∧ has own ['x'] = false := by
    simp [needsUnits, and_assoc]
  rw [← Bool.not_eq_true, hunits, hneeds]
  -- where unit vectors are added the author sets no `x`, so the key is `y`
  constructor
  · rintro h ⟨rfl, hall⟩
    exact h ⟨hall, by decide⟩
  · rintro h ⟨⟨hheavy, hlacks, hx⟩, hmem⟩
    simp only [List.mem_cons, List.not_mem_nil, or_false] at hmem
    rcases hmem with rfl | rfl
    · rw [hk] at hx
      cases hx
    · exact h ⟨rfl, hheavy, hlacks, hx⟩

/-- An author who sets both unit vectors keeps them, however long the labels are. -/
theorem synthesize_keeps_effect_grid :
    Intent.medium ∈ [Intent.compact, .medium, .wide] ∧ has (texts ["x=2cm", "y=3cm"]) ['y'] = true ∧
      lastPlace? ['y'] (synthesize {} .medium { labelChars := 40 } (texts ["x=2cm", "y=3cm"])) = some 1 :=
  have hi : Intent.medium ∈ [Intent.compact, .medium, .wide] := by decide
  have hy : has (texts ["x=2cm", "y=3cm"]) ['y'] = true := by decide
  ⟨hi, hy, ((synthesize_keeps_effect_iff {} { labelChars := 40 } hi (texts ["x=2cm", "y=3cm"])).2 ['y'] hy).1.2 (by decide)⟩

/-- An author's `y` alone is overridden where labels are long. -/
theorem loneUnit_overridden : has (texts ["y=2cm"]) ['y'] = true ∧
    lastPlace? ['y'] (synthesize {} .compact { labelChars := 40 } (texts ["y=2cm"])) ≠ lastPlace? ['y'] (texts ["y=2cm"]) := by
  obtain ⟨added, heq, -⟩ := synthesize_eq {} { labelChars := 40 } (by decide : Intent.compact ∈ _) (texts ["y=2cm"])
  have hneeds : needsUnits {} { labelChars := 40 } (texts ["y=2cm"]) = true := by decide
  refine ⟨by decide, ?_⟩
  rw [heq, Ne, lastPlace?_append_eq_iff, has_append, hneeds, given, if_pos rfl, (has_labelUnits {} ['y']).2 (by decide),
    Bool.or_true]
  decide

end Galley.Diagram
