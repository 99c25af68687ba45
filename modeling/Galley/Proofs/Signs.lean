import Galley.Proofs.Characters
import Galley.Proofs.Sheltering
import Mathlib.Algebra.GroupWithZero.Nat
import Mathlib.Algebra.Order.BigOperators.Group.List
import Mathlib.Algebra.Order.Group.Nat
/-!
# Signs that begin constructs

Whatever is taken out of a document begins with a backslash or a dollar. `signs` counts both in a text. Rewriting adds
none if no construct is replaced by a text with more of them than it has itself (`countP_replaceAll`); so the repairs
add none (`signs_repair`), since every piece of code that is set aside comes back at most once.
-/

namespace Galley

def isSign (c : Char) : Bool := c = '\\' || c = '$'

/-- How many backslashes and dollars there are. -/
def signs (s : Text) : Nat := s.countP isSign

@[simp] theorem signs_nil : signs [] = 0 := rfl

@[simp] theorem signs_append (s t : Text) : signs (s ++ t) = signs s + signs t := List.countP_append

@[simp] theorem signs_cons (c : Char) (s : Text) : signs (c :: s) = signs s + if isSign c then 1 else 0 := List.countP_cons

@[simp] theorem isSign_dollar : isSign '$' = true := rfl

@[simp] theorem isSign_backslash : isSign '\\' = true := rfl

theorem signs_flatMap {α : Type} (l : List α) (f : α → Text) : signs (l.flatMap f) = (l.map fun a => signs (f a)).sum := by
  induction l with
  | nil => rfl
  | cons a l ih => rw [List.flatMap_cons, signs_append, ih, List.map_cons, List.sum_cons]

theorem signs_le_of_sublist {s t : Text} (h : t.Sublist s) : signs t ≤ signs s := h.countP_le

theorem signs_mono {s t : Text} (h : t <:+: s) : signs t ≤ signs s := signs_le_of_sublist h.sublist

theorem signs_le_length (s : Text) : signs s ≤ s.length := List.countP_le_length

theorem signs_eq_zero {s : Text} (h : ∀ c ∈ s, isSign c = false) : signs s = 0 :=
  List.countP_eq_zero.2 fun c hc => by simp [h c hc]

theorem signs_pos {s : Text} {c : Char} (hc : isSign c = true) (h : c ∈ s) : 0 < signs s :=
  List.countP_pos_iff.2 ⟨c, h, hc⟩

/-! ## Rewriting -/

section Rewriting

variable {α : Type} {read : Reader α}

/-- Rewriting adds no characters of a kind if no construct is replaced by a text with more of them. -/
theorem countP_rewriting (q : Char → Bool) {g : Piece α → Text} (hchar : ∀ c, g (.char c) = [c])
    (hhit : ∀ a before t rest, read before t = some (a, rest) →
      (g (.hit a (Text.upTo t rest))).countP q ≤ (Text.upTo t rest).countP q) (s : Text) :
    ((s.cut read).flatMap g).countP q ≤ s.countP q := by
  have main (ps : List (Piece α)) (h : ∀ p ∈ ps, (g p).countP q ≤ p.source.countP q) :
      (ps.flatMap g).countP q ≤ (Piece.sources ps).countP q := by
    rw [Piece.sources, List.countP_flatMap, List.countP_flatMap]
    exact List.sum_le_sum h
  have hcut := main (s.cut read) fun p hp => by
    rcases Text.mem_cut hp with ⟨c, -, rfl⟩ | ⟨a, before, t, rest, rfl, -, hr⟩
    · rw [hchar]
      exact Nat.le_refl _
    · exact hhit a before t rest hr
  rwa [Text.sources_cut] at hcut

theorem countP_replaceAll (q : Char → Bool) {f : α → Text}
    (h : ∀ a before t rest, read before t = some (a, rest) → (f a).countP q ≤ (Text.upTo t rest).countP q) (s : Text) :
    (s.replaceAll read f).countP q ≤ s.countP q :=
  countP_rewriting q (fun _ => rfl) h s

theorem countP_removeAll (q : Char → Bool) (s : Text) : (s.removeAll read).countP q ≤ s.countP q :=
  countP_replaceAll q (fun _ _ _ _ _ => Nat.zero_le _) s

theorem signs_replaceAll_of_zero {f : α → Text} (h : ∀ a, signs (f a) = 0) (s : Text) :
    signs (s.replaceAll read f) ≤ signs s :=
  countP_replaceAll isSign (fun a _ _ _ _ => by rw [← signs, h]; exact Nat.zero_le _) s

end Rewriting

/-! ## Repairs -/

namespace Repair

theorem signs_mergeChain (s : Text) : signs (mergeChain s) ≤ signs s := by
  refine countP_rewriting isSign (fun _ => rfl) (fun p before t rest h => ?_) s
  obtain ⟨left, right, tail⟩ := p
  obtain ⟨g₁, g₂, g₃, g₄, u, -, rfl, rfl, rfl⟩ := chain_eq h
  dsimp only
  split
  · have hstrip := signs_mono (Text.strip_part (u.takeWhile (· ≠ '\n')))
    have hsource : '$' :: (left ++ '$' :: (g₁ ++ '=' :: (g₂ ++ '$' :: (right ++ '$' :: (g₃ ++ '+' :: (g₄ ++ u)))))) =
        '$' :: (left ++ '$' :: (g₁ ++ '=' :: (g₂ ++ '$' :: (right ++ '$' :: (g₃ ++ '+' :: (g₄ ++ u.takeWhile (· ≠ '\n'))))))) ++
          u.dropWhile (· ≠ '\n') := by
      simp
    have hopen : signs "$$ ".toList = 2 := rfl
    have hclose : signs " $$".toList = 2 := rfl
    have hequals : signs " = ".toList = 0 := rfl
    have hplus : signs " + ".toList = 0 := rfl
    rw [hsource, Text.upTo_append_rest, ← signs, ← signs]
    simp only [signs_append, signs_cons, isSign_dollar, if_true, hopen, hclose, hequals, hplus]
    omega
  · exact Nat.le_refl _

theorem signs_mergePairs (s : Text) : signs (mergePairs s) ≤ signs s := by
  refine countP_replaceAll isSign (fun p before t rest h => ?_) s
  obtain ⟨left, op, right⟩ := p
  obtain ⟨g₁, g₂, -, hop, rfl⟩ := pair_eq h
  have hsource : '$' :: (left ++ '$' :: (g₁ ++ op :: (g₂ ++ '$' :: (right ++ '$' :: rest)))) =
      '$' :: (left ++ '$' :: (g₁ ++ op :: (g₂ ++ '$' :: (right ++ ['$'])))) ++ rest := by
    simp
  have hspace : signs " ".toList = 0 := rfl
  have hdollar : signs "$".toList = 1 := rfl
  rw [hsource, Text.upTo_append_rest, ← signs, ← signs]
  simp only [signs_append, signs_cons, signs_nil, isSign_dollar, if_true, hspace, hdollar]
  omega

section Kinds

variable (q : Char → Bool)

theorem countP_dropDollars (opening closing s : Text) : (dropDollars opening closing s).countP q ≤ s.countP q := by
  refine countP_replaceAll q (fun inside before t rest h => ?_) s
  have hinside : (inside.removeAll dollar).countP q ≤ inside.countP q := countP_removeAll q inside
  rw [between_eq h, ← List.append_assoc inside, ← List.append_assoc opening, Text.upTo_append_rest]
  simp only [List.countP_append]
  omega

section Braces

variable (hopen : q '{' = false) (hclose : q '}' = false)

include hopen hclose

theorem countP_joinSubscript (formula script : Text) :
    (joinSubscript (formula, script)).countP q = ('$' :: (formula ++ '$' :: '_' :: script)).countP q := by
  have hjoined : joinSubscript (formula, script) = '$' :: (formula ++ '_' :: '{' :: (script ++ ['}', '$'])) := by
    simp [joinSubscript]
  simp only [hjoined, List.countP_append, List.countP_cons, List.countP_nil, hopen, hclose, Bool.false_eq_true, if_false]
  omega

theorem countP_strandedSubscripts (s : Text) : (s.replaceAll strandedSubscript joinSubscript).countP q ≤ s.countP q := by
  refine countP_replaceAll q (fun p before t rest h => ?_) s
  obtain ⟨formula, script⟩ := p
  obtain ⟨-, rfl⟩ := strandedSubscript_eq h
  have hsource : '$' :: (formula ++ '$' :: '_' :: (script ++ rest)) = '$' :: (formula ++ '$' :: '_' :: script) ++ rest := by
    simp
  rw [hsource, Text.upTo_append_rest, countP_joinSubscript q hopen hclose]

theorem countP_strandedGroups (s : Text) : (s.replaceAll strandedGroup joinSubscript).countP q ≤ s.countP q := by
  refine countP_replaceAll q (fun p before t rest h => ?_) s
  obtain ⟨formula, script⟩ := p
  obtain ⟨gap, -, rfl⟩ := strandedGroup_eq h
  have hsource : '$' :: (formula ++ '$' :: '_' :: (gap ++ '{' :: (script ++ '}' :: rest))) =
      '$' :: (formula ++ '$' :: '_' :: (gap ++ '{' :: (script ++ ['}']))) ++ rest := by
    simp
  rw [hsource, Text.upTo_append_rest, countP_joinSubscript q hopen hclose]
  simp only [List.countP_append, List.countP_cons]
  omega

end Braces

theorem countP_dropUnsafe (s : Text) : (dropUnsafe s).content.countP q ≤ s.countP q := by
  unfold dropUnsafe
  refine List.foldlRecOn (motive := fun r : Repaired => r.content.countP q ≤ s.countP q) _ _ (Nat.le_refl _) fun r hr p _ => ?_
  dsimp only
  split
  · exact hr
  · exact (countP_removeAll q _).trans hr

end Kinds

theorem signs_mend (s : Text) : signs (mend s).content ≤ signs s :=
  calc signs (mend s).content
    _ ≤ _ := countP_dropUnsafe isSign _
    _ ≤ _ := countP_strandedGroups isSign rfl rfl _
    _ ≤ _ := countP_strandedSubscripts isSign rfl rfl _
    _ ≤ _ := countP_dropDollars isSign _ _ _
    _ ≤ _ := countP_dropDollars isSign _ _ _
    _ ≤ _ := signs_mergePairs _
    _ ≤ _ := signs_mergeChain _
    _ ≤ _ := countP_removeAll isSign _
    _ ≤ signs s := signs_replaceAll_of_zero (fun _ => rfl) s

/-! ## Code set aside -/

theorem exists_spanned (ps : List (Piece Unit)) : ∃ u₀ spans, ps = spanned u₀ spans := by
  induction ps with
  | nil => exact ⟨[], [], rfl⟩
  | cons p ps ih =>
    obtain ⟨u₀, spans, rfl⟩ := ih
    cases p with
    | char c => exact ⟨c :: u₀, spans, rfl⟩
    | hit r v => exact ⟨[], (v, u₀) :: spans, by simp [spanned]⟩

theorem signs_shelterMark (k : Nat) : signs (shelterMark k) = 0 := by
  refine signs_eq_zero fun c hc => ?_
  have hmark := isMarkChar_of_mem hc
  rw [Bool.eq_false_iff]
  intro hsign
  simp only [isSign, Bool.or_eq_true, decide_eq_true_eq] at hsign
  rcases hsign with rfl | rfl <;> cases hmark

theorem signs_numbered (n : Nat) (us : List Text) : signs (numbered n us) = (us.map signs).sum := by
  induction us generalizing n with
  | nil => rfl
  | cons u us ih => rw [numbered, signs_append, signs_append, signs_shelterMark, ih, List.map_cons, List.sum_cons, Nat.zero_add]

/-- Some of the pieces of code, each at most once. -/
theorem sum_getD_le (codes : List Text) {ks : List Nat} (h : ks.Sublist (List.range codes.length)) :
    (ks.map fun k => signs (codes.getD k [])).sum ≤ (codes.map signs).sum := by
  have hall : (List.range codes.length).map (fun k => signs (codes.getD k [])) = codes.map signs := by
    refine List.ext_getElem (by simp) fun i hi _ => ?_
    have hlt : i < codes.length := by simpa using hi
    simp [List.getD_eq_getElem?_getD, List.getElem?_eq_getElem hlt]
  rw [← hall]
  exact (h.map _).sum_le_sum fun _ _ => Nat.zero_le _

theorem signs_interleave (codes : List Text) (w₀ : Text) (parts : List (Nat × Text)) :
    signs (interleave codes w₀ parts) =
      signs (interleave [] w₀ parts) + ((parts.map Prod.fst).map fun k => signs (codes.getD k [])).sum := by
  have hparts : signs (parts.flatMap fun p => codes.getD p.1 [] ++ p.2) =
      signs (parts.flatMap fun p => ([] : List Text).getD p.1 [] ++ p.2) +
        ((parts.map Prod.fst).map fun k => signs (codes.getD k [])).sum := by
    induction parts with
    | nil => rfl
    | cons p parts ih =>
      simp only [List.flatMap_cons, List.map_cons, List.sum_cons, signs_append, ih, List.getD_nil, signs_nil]
      omega
  simp only [interleave, signs_append, hparts]
  omega

/-- Mending moves some of the code away, and puts none of it in twice. -/
theorem signs_unshelter (s : Text) : signs (unshelter (shelter s).2 (mend (shelter s).1).content) ≤ signs s := by
  have hfilter : signs (s.filter (· ≠ nul)) ≤ signs s := signs_le_of_sublist List.filter_sublist
  have hnul : nul ∉ s.filter (· ≠ nul) := by simp
  obtain ⟨u₀, spans, hspans⟩ := exists_spanned (Text.cut verbatim (s.filter (· ≠ nul)))
  obtain ⟨hu₀, hus⟩ := not_mem_spanned hnul hspans
  have hshelter : shelter s = (u₀ ++ numbered 0 (spans.map Prod.snd), spans.map Prod.fst) := by
    rw [shelter, hspans, shelterPieces_spanned]
  have hsource : s.filter (· ≠ nul) = u₀ ++ spans.flatMap fun p => p.1 ++ p.2 := by
    rw [← @Text.sources_cut _ verbatim (s.filter (· ≠ nul)), hspans, sources_spanned]
  have hmarked : Holds (List.range (spans.map Prod.fst).length) (u₀ ++ numbered 0 (spans.map Prod.snd)) := by
    rw [List.length_map, ← List.length_map Prod.snd, List.range_eq_range']
    exact .text hu₀ (holds_numbered 0 hus)
  obtain ⟨ks, hks, hleft, -⟩ := hmarked.mend.dropUnsafe
  obtain ⟨w₀, parts, hparts, hback⟩ := hleft.unshelter
  -- with empty code the text is the mended one without its marks
  have hempty : signs (interleave [] w₀ parts) ≤ signs (u₀ ++ numbered 0 (spans.map Prod.snd)) := by
    rw [← hback]
    exact (signs_replaceAll_of_zero (fun _ => rfl) _).trans (signs_mend _)
  have hcodes := sum_getD_le (spans.map Prod.fst) hks
  have hmend (t : Text) : dropUnsafe (beforeDrop t) = mend t := rfl
  rw [hshelter, ← hmend, hback, signs_interleave, hparts]
  rw [hsource, signs_append, signs_flatMap] at hfilter
  rw [signs_append, signs_numbered] at hempty
  simp only [signs_append, List.sum_map_add] at hfilter
  simp only [List.map_map, Function.comp_def] at hempty hcodes
  dsimp only
  omega

theorem signs_repair (s : Text) : signs (repair s).content ≤ signs s := by
  by_cases hempty : s.isEmpty = true
  · rw [repair, if_pos hempty]
  · have hcontent : (repair s).content = unshelter (shelter (stripFences s)).2 (mend (shelter (stripFences s)).1).content := by
      rw [repair, if_neg hempty]
    rw [hcontent]
    exact (signs_unshelter _).trans (signs_mono (stripFences_part s))

end Repair

end Galley
