import Galley.Proofs.Tags
/-!
# Lower case

The lower case of a text has no other lower case (`lower_lower`), and that of an attribute's name is one
(`isAttributeName_lower`). Of the letters beyond ASCII this is decided for the runs of their table.
-/

namespace Galley

/-! ## Runs of letters -/

namespace CaseRun

/-- Whether the run lists a letter. -/
def Lists (r : CaseRun) (n : Nat) : Prop := r.first ≤ n ∧ n ≤ r.last ∧ (n - r.first) % r.step = 0

/-- The first and the last of the letters that the run assigns. -/
def image (r : CaseRun) : Nat × Nat := (((r.first : Int) + r.offset).toNat, ((r.last : Int) + r.offset).toNat)

/-- The run `q` lists nothing that `r` assigns: its letters lie on one side, or in the gaps of every second letter. -/
def apart (r q : CaseRun) : Bool :=
  Nat.blt r.image.2 q.first || Nat.blt q.last r.image.1 ||
    ((r.first == r.last || r.step == 2) && q.step == 2 && (r.image.1 + q.first) % 2 == 1)

/-- What the run assigns are characters beyond ASCII that are no white space and have no lower case of two characters. -/
def isOrdinary (r : CaseRun) : Bool :=
  128 ≤ r.image.1 && (r.image.2 < 304 || 304 < r.image.1) &&
    (r.image.2 < 55296 || 57343 < r.image.1 && r.image.2 < 1114112) &&
    blankRanges.all fun b => r.image.2 < b.1 || b.2 < r.image.1

variable {r q : CaseRun} {n : Nat}

theorem mem_image (hr : r.isOrdinary = true) (hn : r.Lists n) :
    r.image.1 ≤ ((n : Int) + r.offset).toNat ∧ ((n : Int) + r.offset).toNat ≤ r.image.2 ∧
      ((n : Int) + r.offset).toNat = r.image.1 + (n - r.first) := by
  obtain ⟨hfirst, hlast, -⟩ := hn
  simp only [isOrdinary, Bool.and_eq_true, decide_eq_true_eq] at hr
  have hlow := hr.1.1.1
  unfold image at hlow ⊢
  omega

theorem not_lists (hr : r.isOrdinary = true) (h : r.apart q = true) (hn : r.Lists n) :
    ¬q.Lists ((n : Int) + r.offset).toNat := by
  rintro ⟨hfirst, hlast, hstep⟩
  obtain ⟨hlow, hhigh, himage⟩ := mem_image hr hn
  obtain ⟨hfirst', hlast', hstep'⟩ := hn
  simp only [apart, Bool.or_eq_true, Bool.and_eq_true, Nat.blt_eq, beq_iff_eq] at h
  rcases h with (h | h) | ⟨⟨hsingle | htwo, hq⟩, hodd⟩
  · omega
  · omega
  · rw [hq] at hstep
    omega
  · rw [hq] at hstep
    rw [htwo] at hstep'
    omega

-- decided for pairs of runs: for the letters of one and the other run there would be eight times as many pairs
theorem apart_lowerRuns : (lowerRuns.all fun r => lowerRuns.all fun q => r.apart q) = true := by decide +kernel

/-- All runs assign such characters but the one of the kelvin sign. -/
theorem isOrdinary_lowerRuns : ∀ r ∈ lowerRuns, r.isOrdinary = true ∨ ((r.first = 8490 ∧ r.last = 8490) ∧ r.offset = -8383) := by
  decide +kernel

theorem apply_eq_or (runs : List CaseRun) (n : Nat) :
    (∃ r ∈ runs, r.Lists n ∧ apply runs n = ((n : Int) + r.offset).toNat) ∨ (∀ r ∈ runs, ¬r.Lists n) ∧ apply runs n = n := by
  unfold apply
  split
  · rename_i r hr
    have hholds := List.find?_some hr
    simp only [Bool.and_eq_true, decide_eq_true_eq] at hholds
    exact .inl ⟨r, List.mem_of_find?_eq_some hr, ⟨hholds.1.1, hholds.1.2, hholds.2⟩, rfl⟩
  · rename_i hnone
    refine .inr ⟨fun r hr hn => ?_, rfl⟩
    have hfails := List.find?_eq_none.1 hnone r hr
    simp only [Bool.and_eq_true, decide_eq_true_eq] at hfails
    exact hfails ⟨⟨hn.1, hn.2.1⟩, hn.2.2⟩

/-- What a run assigns has no other lower case. -/
theorem apply_assigned (hr : r ∈ lowerRuns) (hordinary : r.isOrdinary = true) (hn : r.Lists n) :
    apply lowerRuns ((n : Int) + r.offset).toNat = ((n : Int) + r.offset).toNat := by
  rcases apply_eq_or lowerRuns ((n : Int) + r.offset).toNat with ⟨q, hq, hlists, -⟩ | ⟨-, h⟩
  · have hall := List.all_eq_true.1 apart_lowerRuns r hr
    exact absurd hlists (not_lists hordinary (List.all_eq_true.1 hall q hq) hn)
  · exact h

end CaseRun

namespace Html

/-! ## Characters in lower case -/

theorem toNat_ofNat {n : Nat} (h : n.isValidChar) : (Char.ofNat n).toNat = n := by
  rw [Char.ofNat, dif_pos h]
  rfl

/-- A character that is its own lower case, and that a scan for a name goes over. -/
def isLowered (c : Char) : Bool := lowerChar c = [c] && isAttributeChar c

theorem isLowered_assigned {r : CaseRun} (hr : r ∈ lowerRuns) {n : Nat} (hn : r.Lists n) :
    isLowered (Char.ofNat ((n : Int) + r.offset).toNat) = true := by
  rcases CaseRun.isOrdinary_lowerRuns r hr with hordinary | ⟨⟨hfirst, hlast⟩, hoffset⟩
  · have happly := CaseRun.apply_assigned hr hordinary hn
    obtain ⟨hlow, hhigh, -⟩ := CaseRun.mem_image hordinary hn
    generalize ((n : Int) + r.offset).toNat = m at happly hlow hhigh
    simp only [CaseRun.isOrdinary, Bool.and_eq_true, Bool.or_eq_true, decide_eq_true_eq, List.all_eq_true] at hordinary
    obtain ⟨⟨⟨hascii, hdotted⟩, hvalid⟩, hblanks⟩ := hordinary
    have htoNat : (Char.ofNat m).toNat = m := toNat_ofNat (by
      rcases hvalid with hvalid | hvalid
      · exact .inl (Nat.lt_of_le_of_lt hhigh hvalid)
      · exact .inr ⟨Nat.lt_of_lt_of_le hvalid.1 hlow, Nat.lt_of_le_of_lt hhigh hvalid.2⟩)
    have hlower : lowerChar (Char.ofNat m) = [Char.ofNat m] := by
      rw [lowerChar, htoNat, if_neg (by omega), if_neg (by omega), happly]
    have hblank : isBlank (Char.ofNat m) = false := by
      rw [isBlank, inRanges, htoNat, List.any_eq_false]
      intro b hb
      have hapart := hblanks b hb
      simp only [Bool.and_eq_true, decide_eq_true_eq]
      omega
    have hne (d : Char) (hd : d.toNat < 128) : Char.ofNat m ≠ d := fun he => by
      rw [← he, htoNat] at hd
      omega
    simp [isLowered, hlower, isAttributeChar, hblank, hne '/' (by decide), hne '=' (by decide), hne '>' (by decide)]
  · obtain rfl : n = 8490 := by
      have hle := hn.2.1
      have hge := hn.1
      omega
    rw [hoffset]
    decide +kernel

theorem isLowered_ascii : ∀ n < 128, Char.toLower (Char.ofNat n) = Char.ofNat n ∨
    isLowered (Char.toLower (Char.ofNat n)) = true := by
  decide +kernel

/-- A character is its own lower case, or its lower case is made of characters that are their own. -/
theorem lowerChar_cases (c : Char) :
    lowerChar c = [c] ∨ lowerChar c ≠ [] ∧ ∀ d ∈ lowerChar c, isLowered d = true := by
  unfold lowerChar
  split
  · rename_i hascii
    have hc := isLowered_ascii c.toNat hascii
    rw [Char.ofNat_toNat] at hc
    rcases hc with hc | hc
    · exact .inl (by rw [hc])
    · exact .inr ⟨by simp, by simpa using hc⟩
  split
  · exact .inr (by decide +kernel)
  · rcases CaseRun.apply_eq_or lowerRuns c.toNat with ⟨r, hr, hlists, happly⟩ | ⟨-, happly⟩
    · rw [happly]
      exact .inr ⟨by simp, by simpa using isLowered_assigned hr hlists⟩
    · exact .inl (by rw [happly, Char.ofNat_toNat])

theorem isLowered_iff {c : Char} : isLowered c = true ↔ lowerChar c = [c] ∧ isAttributeChar c = true := by
  simp [isLowered]

theorem flatMap_lowerChar_eq {s : Text} (h : ∀ c ∈ s, lowerChar c = [c]) : s.flatMap lowerChar = s := by
  induction s with
  | nil => rfl
  | cons c s ih =>
    obtain ⟨hc, hs⟩ := List.forall_mem_cons.1 h
    rw [List.flatMap_cons, hc, ih hs]
    rfl

/-- Lower case has no other lower case. -/
theorem lower_lower (s : Text) : Text.lower (Text.lower s) = Text.lower s := by
  refine flatMap_lowerChar_eq fun d hd => ?_
  obtain ⟨c, -, hd⟩ := List.mem_flatMap.1 hd
  rcases lowerChar_cases c with hc | ⟨-, hc⟩
  · rw [hc, List.mem_singleton] at hd
    rw [hd, hc]
  · exact (isLowered_iff.1 (hc d hd)).1

theorem isAttributeChar_of_mem_lowerChar {c d : Char} (h : isAttributeChar c = true) (hd : d ∈ lowerChar c) :
    isAttributeChar d = true := by
  rcases lowerChar_cases c with hc | ⟨-, hc⟩
  · rw [hc, List.mem_singleton] at hd
    rwa [hd]
  · exact (isLowered_iff.1 (hc d hd)).2

theorem isAttributeName_lower {name : Text} (h : isAttributeName name = true) : isAttributeName (Text.lower name) = true := by
  cases name with
  | nil => cases h
  | cons c s =>
    simp only [isAttributeName, Bool.and_eq_true, List.all_eq_true] at h
    obtain ⟨hc, hs⟩ := h
    have htail : ∀ d ∈ Text.lower s, isAttributeChar d = true := fun d hd => by
      obtain ⟨x, hx, hd⟩ := List.mem_flatMap.1 hd
      exact isAttributeChar_of_mem_lowerChar (hs x hx) hd
    have hcons : Text.lower (c :: s) = lowerChar c ++ Text.lower s := List.flatMap_cons
    rw [hcons]
    rcases lowerChar_cases c with hown | ⟨hne, hlowered⟩
    · rw [hown, List.singleton_append, isAttributeName, hc, Bool.true_and]
      exact List.all_eq_true.2 htail
    · refine isAttributeName_of_forall (by simp [hne]) fun d hd => ?_
      rcases List.mem_append.1 hd with hd | hd
      · exact (isLowered_iff.1 (hlowered d hd)).2
      · exact htail d hd

end Html

end Galley
