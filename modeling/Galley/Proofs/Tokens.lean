import Galley.Block.Token
import Galley.Proofs.Cutting
import Mathlib.Algebra.Group.Nat.Defs
import Mathlib.Data.List.Infix
/-!
# Tokens as they are written

A token that was handed out is read whole wherever it stands (`kindName?_ofNumber`), it is no other token
(`ofNumber_inj`), and no token begins inside it (`not_word_inside`).
-/

namespace Galley

theorem Text.isDigit_of_mem_ofNat {c : Char} {n : Nat} (h : c ∈ Text.ofNat n) : c.isDigit = true := by
  rw [Text.ofNat, Nat.toString_eq_ofList_toDigits, String.toList_ofList] at h
  exact Nat.isDigit_of_mem_toDigits (by decide) (by decide) h

theorem digitValue?_of_isDigit {c : Char} (h : c.isDigit = true) : digitValue? c = some (c.toNat - 48) := by
  have hrange : 48 ≤ c.toNat ∧ c.toNat < 48 + 10 := by
    simp only [Char.isDigit, Bool.and_eq_true, decide_eq_true_eq] at h
    have hlow : 48 ≤ c.toNat := h.1
    have hhigh : c.toNat ≤ 57 := h.2
    omega
  unfold digitValue? digitZeros
  rw [List.find?_cons_of_pos (by simpa using hrange)]
  rfl

theorem isDecimalDigit_of_isDigit {c : Char} (h : c.isDigit = true) : isDecimalDigit c = true := by
  rw [isDecimalDigit, digitValue?_of_isDigit h]
  rfl

namespace Text

theorem digitsValue_ofNat (n : Nat) : Text.digitsValue (Text.ofNat n) = n := by
  have hfold (t : Text) (ht : ∀ c ∈ t, c.isDigit = true) (m : Nat) :
      t.foldl (fun n c => 10 * n + (digitValue? c).getD 0) m = Nat.ofDigitChars 10 t m := by
    induction t generalizing m with
    | nil => rfl
    | cons c t ih =>
      rw [List.foldl_cons, digitValue?_of_isDigit (ht c List.mem_cons_self), Option.getD_some, ih fun x hx => ht x (List.mem_cons_of_mem c hx),
        Nat.ofDigitChars_cons]
      rfl
  rw [Text.digitsValue, hfold _ (fun c hc => Text.isDigit_of_mem_ofNat hc), Text.ofNat, Nat.toString_eq_ofList_toDigits,
    String.toList_ofList]
  exact Nat.ofDigitChars_toDigits (by decide) (by decide)

@[simp] theorem isEmpty_ofNat (n : Nat) : (Text.ofNat n).isEmpty = false := by
  have hlen : 0 < (Text.ofNat n).length := by
    rw [Text.ofNat, Nat.toString_eq_ofList_toDigits, String.toList_ofList]
    exact Nat.length_toDigits_pos
  rw [List.isEmpty_eq_false_iff]
  exact List.ne_nil_of_length_pos hlen

/-- A number is read up to the first character that is no digit. -/
theorem span_ofNat (n : Nat) {c : Char} (hc : isDecimalDigit c = false) (s : Text) :
    (Text.ofNat n ++ c :: s).span isDecimalDigit = (Text.ofNat n, c :: s) := by
  have hdigit : ∀ x ∈ Text.ofNat n, isDecimalDigit x = true :=
    fun x hx => isDecimalDigit_of_isDigit (isDigit_of_mem_ofNat hx)
  rw [List.span_eq_takeWhile_dropWhile, List.takeWhile_append_of_pos hdigit, List.dropWhile_append_of_pos hdigit,
    List.takeWhile_cons_of_neg (by simp [hc]), List.dropWhile_cons_of_neg (by simp [hc]), List.append_nil]

end Text

namespace Block

namespace Token

theorem isCapital_of_mem_name {kind : Kind} {c : Char} (h : c ∈ kind.name) : isCapital c = true := by
  have hall : ∀ k ∈ Kind.all, k.name.all isCapital = true := by decide
  exact List.all_eq_true.1 (hall kind (by cases kind <;> decide)) c h

theorem isDigit_of_mem_padded {width n : Nat} {c : Char} (h : c ∈ Text.ofNatPadded width n) : c.isDigit = true := by
  unfold Text.ofNatPadded at h
  rcases List.mem_append.1 h with h | h
  · rw [List.eq_of_mem_replicate h]
    decide
  · exact Text.isDigit_of_mem_ofNat h

theorem length_padded {width n : Nat} (hn : n < 10 ^ width) (hw : 0 < width) : (Text.ofNatPadded width n).length = width := by
  have hle : (Text.ofNat n).length ≤ width := by
    rw [Text.ofNat, Nat.toString_eq_ofList_toDigits, String.toList_ofList]
    exact (Nat.length_toDigits_le_iff (by decide) hw).2 hn
  unfold Text.ofNatPadded
  rw [List.length_append, List.length_replicate]
  omega

theorem not_isCapital_of_isDigit {c : Char} (h : c.isDigit = true) : isCapital c = false := by
  have hle : c.toNat ≤ 57 := by
    simp only [Char.isDigit, Bool.and_eq_true, decide_eq_true_eq] at h
    exact h.2
  have hlow : ¬ 'A' ≤ c := fun hA => by
    have : 65 ≤ c.toNat := hA
    omega
  simp [isCapital, hlow]

theorem digits?_append {d : Text} (hd : ∀ c ∈ d, c.isDigit = true) (rest : Text) : digits? d.length (d ++ rest) = some rest := by
  induction d with
  | nil => rfl
  | cons c d ih =>
    obtain ⟨hc, hd⟩ := List.forall_mem_cons.1 hd
    simp only [List.length_cons, List.cons_append, digits?, isDecimalDigit_of_isDigit hc, if_true, ih hd]

/-- A token that was handed out is read whole, whatever follows it. -/
theorem kindName?_ofNumber (kind : Kind) {n : Nat} (hn : n < 10 ^ 6) (rest : Text) :
    kindName? (ofNumber kind n ++ rest) = some (kind.name, rest) := by
  have hlen := length_padded hn (by decide)
  have hdigit : ∀ c ∈ Text.ofNatPadded 6 n, c.isDigit = true := fun c hc => isDigit_of_mem_padded hc
  have hspan : (kind.name ++ (Text.ofNatPadded 6 n ++ rest)).span isCapital = (kind.name, Text.ofNatPadded 6 n ++ rest) := by
    have hstop : (Text.ofNatPadded 6 n ++ rest).takeWhile isCapital = [] ∧
        (Text.ofNatPadded 6 n ++ rest).dropWhile isCapital = Text.ofNatPadded 6 n ++ rest := by
      cases hp : Text.ofNatPadded 6 n with
      | nil => simp [hp] at hlen
      | cons d ds =>
        have hd := not_isCapital_of_isDigit (hdigit d (by simp [hp]))
        exact ⟨List.takeWhile_cons_of_neg (by simp [hd]), List.dropWhile_cons_of_neg (by simp [hd])⟩
    have hname : ∀ c ∈ kind.name, isCapital c = true := fun c hc => isCapital_of_mem_name hc
    rw [List.span_eq_takeWhile_dropWhile, List.takeWhile_append_of_pos hname, List.dropWhile_append_of_pos hname,
      hstop.1, hstop.2, List.append_nil]
  have hempty : kind.name.isEmpty = false := by cases kind <;> decide
  have hdigits := digits?_append hdigit rest
  rw [hlen] at hdigits
  unfold kindName? ofNumber
  simp only [List.append_assoc, Text.after?_append, Option.bind_eq_bind, Option.bind_some, hspan, hempty, hdigits,
    Bool.false_eq_true, if_false]

theorem reader_ofNumber (kind : Kind) {n : Nat} (hn : n < 10 ^ 6) (before : Option Char) (rest : Text) :
    reader before (ofNumber kind n ++ rest) = some (ofNumber kind n, rest) := by
  simp only [reader, kindName?_ofNumber kind hn rest, Option.map_some, Text.upTo_append_rest]

theorem padded_inj {width m n : Nat} (h : Text.ofNatPadded width m = Text.ofNatPadded width n) : m = n := by
  have hvalue (n : Nat) : Nat.ofDigitChars 10 (Text.ofNatPadded width n) 0 = n := by
    have hzeros (k : Nat) : Nat.ofDigitChars 10 (List.replicate k '0') 0 = 0 := by
      induction k with
      | zero => rfl
      | succ k ih =>
        rw [List.replicate_succ, Nat.ofDigitChars_cons]
        exact ih
    unfold Text.ofNatPadded
    rw [Nat.ofDigitChars_append, hzeros, Text.ofNat, Nat.toString_eq_ofList_toDigits, String.toList_ofList]
    exact Nat.ofDigitChars_toDigits (by decide) (by decide)
  rw [← hvalue m, h, hvalue n]

theorem ofNumber_inj {k k' : Kind} {m n : Nat} (hm : m < 10 ^ 6) (hn : n < 10 ^ 6) (h : ofNumber k m = ofNumber k' n) :
    k = k' ∧ m = n := by
  have hk := kindName?_ofNumber k hm []
  rw [h, kindName?_ofNumber k' hn []] at hk
  have hname : k'.name = k.name := congrArg Prod.fst (Option.some.inj hk)
  obtain rfl : k' = k := by
    revert hname
    cases k <;> cases k' <;> decide
  exact ⟨rfl, padded_inj (List.append_cancel_left h)⟩

/-! ## Tokens that are read -/

theorem digits?_eq_some {n : Nat} {s rest : Text} (h : digits? n s = some rest) :
    ∃ d, s = d ++ rest ∧ d.length = n ∧ ∀ u, digits? n (d ++ u) = some u := by
  induction n generalizing s with
  | zero =>
    cases h
    exact ⟨[], rfl, rfl, fun u => rfl⟩
  | succ n ih =>
    cases s with
    | nil => cases h
    | cons c s =>
      simp only [digits?] at h
      split at h
      · rename_i hc
        obtain ⟨d, rfl, hd, hread⟩ := ih h
        refine ⟨c :: d, rfl, congrArg (· + 1) hd, fun u => ?_⟩
        rw [List.cons_append, digits?, if_pos hc, hread]
      · cases h

theorem kindName?_eq_some {s name rest : Text} (h : kindName? s = some (name, rest)) :
    ∃ d, s = word ++ (name ++ (d ++ rest)) ∧ ∀ u, kindName? (word ++ (name ++ (d ++ u))) = some (name, u) := by
  simp only [kindName?, Option.bind_eq_bind, Option.bind_eq_some_iff] at h
  obtain ⟨s₁, h₁, h⟩ := h
  rw [List.span_eq_takeWhile_dropWhile] at h
  dsimp only at h
  split at h
  · cases h
  · rename_i hname
    obtain ⟨r, hr, he⟩ := Option.bind_eq_some_iff.1 h
    cases he
    obtain ⟨d, hd, hlen, hread⟩ := digits?_eq_some hr
    refine ⟨d, ?_, fun u => ?_⟩
    · rw [← hd, List.takeWhile_append_dropWhile]
      exact Text.after?_eq_some_iff.1 h₁
    · cases d with
      | nil => cases hlen
      | cons c d =>
        have hc := Text.head_dropWhile hd
        have hall : ∀ x ∈ s₁.takeWhile isCapital, isCapital x = true :=
          fun x hx => List.all_eq_true.1 List.all_takeWhile x hx
        have hspan : (s₁.takeWhile isCapital ++ (c :: d ++ u)).span isCapital = (s₁.takeWhile isCapital, c :: d ++ u) := by
          rw [List.span_eq_takeWhile_dropWhile, List.takeWhile_append_of_pos hall, List.dropWhile_append_of_pos hall,
            List.cons_append, List.takeWhile_cons_of_neg (by simp [hc]), List.dropWhile_cons_of_neg (by simp [hc]),
            List.append_nil]
        simp only [kindName?, Text.after?_append, Option.bind_eq_bind, Option.bind_some, hspan, hname, hread, if_false,
          Bool.false_eq_true]

/-- A token is read whole, and read again wherever it stands. -/
theorem firm_reader : Text.Firm reader := by
  intro b s token rest h
  obtain ⟨⟨name, r⟩, hr, he⟩ := Option.map_eq_some_iff.1 h
  obtain ⟨d, hs, hread⟩ := kindName?_eq_some hr
  simp only [Prod.mk.injEq] at he
  obtain ⟨rfl, rfl⟩ := he
  have htoken (u : Text) : word ++ (name ++ (d ++ u)) = (word ++ (name ++ d)) ++ u := by simp only [List.append_assoc]
  have hupTo (u : Text) : Text.upTo ((word ++ (name ++ d)) ++ u) u = word ++ (name ++ d) := Text.upTo_append_rest _ u
  have hne : word ++ (name ++ d) ≠ [] := fun he => by cases he
  refine ⟨word ++ (name ++ d), hne, (htoken _) ▸ hs, fun b u => ?_⟩
  have hsource : Text.upTo s r = word ++ (name ++ d) := by rw [hs, htoken, hupTo]
  have hrest := hread u
  rw [htoken] at hrest
  simp only [reader, hrest, Option.map_some, hupTo, hsource]

/-! ## Where a token begins -/

/-- The word that begins every token does not go over a digit. -/
theorem word_prefix_of_digit {v d rest : Text} (hd : ∀ c ∈ d, c.isDigit = true) (hne : d ≠ [])
    (h : word <+: v ++ (d ++ rest)) : word <+: v := by
  rcases List.prefix_or_prefix_of_prefix h (List.prefix_append v (d ++ rest)) with h' | ⟨t, ht⟩
  · exact h'
  · cases t with
    | nil => exact ⟨[], by simpa using ht.symm⟩
    | cons x t =>
      obtain ⟨c, d, rfl⟩ := List.exists_cons_of_ne_nil hne
      rw [← ht, List.prefix_append_right_inj, List.cons_append] at h
      obtain ⟨rfl, -⟩ := List.cons_prefix_cons.1 h
      have hmem : x ∈ word := by rw [← ht]; simp
      have hall : word.all (!·.isDigit) = true := by decide
      have hx := List.all_eq_true.1 hall x hmem
      rw [hd x List.mem_cons_self] at hx
      cases hx

/-- No token begins inside a token. -/
theorem not_word_inside {kind : Kind} {n : Nat} {p u : Text} (h : ofNumber kind n = p ++ u) (hp : p ≠ []) (hu : u ≠ [])
    (rest : Text) : ¬word <+: u ++ rest := by
  intro hw
  have hdigit : ∀ c ∈ Text.ofNatPadded 6 n, c.isDigit = true := fun c hc => isDigit_of_mem_padded hc
  rcases List.append_eq_append_iff.1 h with ⟨v, hv, hrest⟩ | ⟨v, hletters, rfl⟩
  · -- the rest begins among the digits
    obtain ⟨c, u, rfl⟩ := List.exists_cons_of_ne_nil hu
    obtain ⟨he, -⟩ := List.cons_prefix_cons.1 hw
    have hc := hdigit c (by rw [hrest]; simp)
    exact absurd hc (by rw [← he]; decide)
  · -- the rest begins among the letters
    have hlen : 0 < (Text.ofNatPadded 6 n).length := by
      unfold Text.ofNatPadded
      rw [List.length_append, List.length_replicate]
      omega
    rw [List.append_assoc] at hw
    have hv := word_prefix_of_digit hdigit (List.ne_nil_of_length_pos hlen) hw
    have hall : ∀ k ∈ Kind.all, ∀ v ∈ (word ++ k.name).tails, word <+: v → v = word ++ k.name := by decide
    have hsuffix : v <:+ word ++ kind.name := ⟨p, hletters.symm⟩
    have := hall kind (by cases kind <;> decide) v ((List.mem_tails _ _).2 hsuffix) hv
    rw [this] at hletters
    exact hp (List.append_left_eq_self.1 hletters.symm)

end Token

end Block

end Galley
