import Galley.Proofs.Markers
import Galley.Proofs.Stages
/-!
# Counting markers around tokens

A marker does not reach into a token (`Marker.fences_beginsAny`), so what stands in front of a token and what stands behind
it are read on their own (`Slashed.cut_fenced`). With a token in the place of an environment a text holds all the begin
markers of the texts on both sides and no other, so at least one less than before (`Marker.tally_put_lt`).
-/

namespace Galley

namespace Text

variable {α : Type} {read : Reader α}

/-- How often something is read in a text. -/
def tally (read : Reader α) (s : Text) : Nat := (readAll read s).length

/-- Nothing that is read in front of the text reaches into it. -/
def Fences (read : Reader α) (t : Text) : Prop :=
  ∀ b y u, y ≠ [] → read b (y ++ (t ++ u)) = (read b y).map fun r => (r.1, r.2 ++ (t ++ u))

/-- What is found behind a text that is done with is found as if the text were not there. -/
def Done (read : Reader α) (x : Text) : Prop :=
  ∀ u, find? read (x ++ u) = (find? read u).map fun f => { f with before := x ++ f.before }

theorem done_nil : Done read [] := fun u => by
  cases hf : find? read u <;> simp [hf]

theorem filterMap_map_char (t : Text) : (t.map (Piece.char (α := α))).filterMap Piece.value? = [] := by
  rw [List.filterMap_map]
  exact List.filterMap_eq_nil_iff.2 fun _ _ => rfl

/-! ## What begins with a backslash -/

namespace Slashed

variable (h : Slashed read)

include h

theorem readAll_append_slash (s u : Text) : readAll read (s ++ '\\' :: u) = readAll read s ++ readAll read ('\\' :: u) := by
  simp only [readAll, h.cut_append_slash, List.filterMap_append]

theorem readAll_append_of_not_mem {x : Text} (hx : '\\' ∉ x) (s : Text) : readAll read (x ++ s) = readAll read s := by
  rw [readAll, h.cut_append_of_not_mem hx, List.filterMap_append, filterMap_map_char, List.nil_append]
  rfl

/-- What is read in two texts is read, in this order, in one behind the other. -/
theorem readAll_append_sublist (x u : Text) : (readAll read x ++ readAll read u).Sublist (readAll read (x ++ u)) := by
  induction x using Firm.induct (firm h) with
  | nil => exact List.Sublist.refl _
  | char c x hr ih =>
    rw [h.forward.readAll_cons hr]
    refine ih.trans ?_
    rw [List.cons_append]
    cases hlong : read none (c :: (x ++ u)) with
    | none => rw [h.forward.readAll_cons hlong]
    | some r =>
      obtain ⟨a, rest⟩ := r
      obtain ⟨y, hy, hs, -⟩ := h hlong
      -- what is read over the seam has no backslash behind its own, so all that is read behind it stays
      rw [Firm.readAll_hit (firm h) hlong, (List.cons.inj hs).2, h.readAll_append_of_not_mem hy]
      exact List.sublist_cons_self _ _
  | hit x a rest hr ih =>
    rw [Firm.readAll_hit (firm h) hr, Firm.readAll_hit (firm h) (h.read_extend hr u)]
    exact ih.cons_cons a

theorem readAll_sublist_of_suffix {s t : Text} (ht : t <:+ s) : (readAll read t).Sublist (readAll read s) := by
  obtain ⟨x, rfl⟩ := ht
  exact (List.sublist_append_right _ _).trans (h.readAll_append_sublist x t)

/-- The place at which something is read. -/
theorem readAll_eq_append {s : Text} {l l' : List α} {a : α} (hs : readAll read s = l ++ a :: l') :
    ∃ x t rest, s = x ++ t ∧ read none t = some (a, rest) ∧ readAll read rest = l' := by
  induction s using Firm.induct (firm h) generalizing l with
  | nil => simp [readAll, cut, cutFrom] at hs
  | char c s hr ih =>
    rw [h.forward.readAll_cons hr] at hs
    obtain ⟨x, t, rest, rfl, hread, hrest⟩ := ih hs
    exact ⟨c :: x, t, rest, rfl, hread, hrest⟩
  | hit s a' rest hr ih =>
    rw [Firm.readAll_hit (firm h) hr] at hs
    cases l with
    | nil =>
      obtain ⟨rfl, rfl⟩ := List.cons.inj hs
      exact ⟨[], s, rest, rfl, hr, rfl⟩
    | cons b l =>
      obtain ⟨x, t, rest', rfl, hread, hrest⟩ := ih (List.cons.inj hs).2
      obtain ⟨y, -, hy, -⟩ := firm h hr
      exact ⟨y ++ x, t, rest', by rw [hy, List.append_assoc], hread, hrest⟩

/-! ### Counting -/

theorem tally_append_slash (s u : Text) : tally read (s ++ '\\' :: u) = tally read s + tally read ('\\' :: u) := by
  rw [tally, h.readAll_append_slash, List.length_append]
  rfl

theorem tally_hit {b : Option Char} {s rest : Text} {a : α} (hr : read b s = some (a, rest)) :
    tally read s = tally read rest + 1 := by
  rw [h.forward b none] at hr
  rw [tally, Firm.readAll_hit (firm h) hr]
  rfl

/-- An ending of a text holds no more than the text. -/
theorem tally_le_of_suffix {s t : Text} (ht : t <:+ s) : tally read t ≤ tally read s :=
  (h.readAll_sublist_of_suffix ht).length_le

theorem tally_eq_zero {s : Text} : tally read s = 0 ↔ Misses read s := by
  constructor
  · intro hzero
    refine h.forward.misses_of_find?_eq_none (h.read_nil none) ?_
    have hoccurs := Firm.occurs_eq (firm h) s
    rw [List.length_eq_zero_iff.1 hzero, occurs, List.isEmpty_nil, Bool.not_true, Option.isSome_eq_false_iff] at hoccurs
    exact Option.isNone_iff_eq_none.1 hoccurs
  · intro hmiss
    rw [tally, hmiss.readAll_eq]
    rfl

/-- The first construct of a text, with a text in front of it in which nothing is read. -/
theorem find?_eq_some {s : Text} {f : Found α} (hf : find? read s = some f) :
    Misses read f.before ∧ s = f.before ++ (f.source ++ f.after) ∧ read none (f.source ++ f.after) = some (f.value, f.after) := by
  have main (s : Text) (b : Option Char) (f : Found α) (hf : findFrom read b s = some f) :
      Misses read f.before ∧ s = f.before ++ (f.source ++ f.after) ∧ read none (f.source ++ f.after) = some (f.value, f.after) := by
    induction s generalizing b f with
    | nil => cases hf
    | cons c s ih =>
      rw [findFrom] at hf
      cases hr : read b (c :: s) with
      | some r =>
        obtain ⟨a, rest⟩ := r
        rw [hr] at hf
        obtain rfl := Option.some.inj hf
        obtain ⟨x, -, hs, hx⟩ := h hr
        have hsource : upTo (c :: s) rest = '\\' :: x := by
          rw [hs]
          exact upTo_append_rest ('\\' :: x) rest
        rw [hsource]
        exact ⟨h.misses (by simp), hs, hx none rest⟩
      | none =>
        rw [hr] at hf
        obtain ⟨g, hg, rfl⟩ := Option.map_eq_some_iff.1 hf
        obtain ⟨hmiss, hs, hread⟩ := ih _ g hg
        refine ⟨fun b' t ht => ?_, congrArg (c :: ·) hs, hread⟩
        rcases List.suffix_cons_iff.1 ht with rfl | ht
        · cases hlong : read b' (c :: g.before) with
          | none => rfl
          | some r =>
            have := h.read_extend hlong (g.source ++ g.after)
            rw [List.cons_append, ← hs, h.forward b' b, hr] at this
            cases this
        · exact hmiss b' t ht
  exact main s none f hf

/-! ## On both sides of a fence -/

section Fenced

variable {t : Text} (ht : Fences read t) (hslash : '\\' ∉ t)

include ht hslash

theorem cut_fenced (x u : Text) : cut read (x ++ (t ++ u)) = cut read x ++ (t.map .char ++ cut read u) := by
  induction x using Firm.induct (firm h) with
  | nil => exact h.cut_append_of_not_mem hslash u
  | char c s hr ih =>
    have hlong : read none (c :: (s ++ (t ++ u))) = none := by
      rw [← List.cons_append, ht none (c :: s) u (List.cons_ne_nil c s), hr, Option.map_none]
    rw [List.cons_append, h.forward.cut_cons hlong, h.forward.cut_cons hr, ih, List.cons_append]
  | hit s a rest hr ih =>
    obtain ⟨x, -, rfl, hx⟩ := h hr
    have hlong := hx none (rest ++ (t ++ u))
    rw [List.cons_append, List.append_assoc, h.forward.cut_hit hlong rfl, h.forward.cut_hit hr rfl, ih, List.cons_append]

theorem readAll_fenced (x u : Text) : readAll read (x ++ (t ++ u)) = readAll read x ++ readAll read u := by
  simp only [readAll, h.cut_fenced ht hslash, List.filterMap_append, filterMap_map_char, List.nil_append]

theorem tally_fenced (x u : Text) : tally read (x ++ (t ++ u)) = tally read x + tally read u := by
  rw [tally, h.readAll_fenced ht hslash, List.length_append]
  rfl

/-- With a fence in the place of a part no more is read than before. -/
theorem readAll_put_sublist (x : Text) {u rest : Text} (hrest : rest <:+ u) :
    (readAll read (x ++ (t ++ rest))).Sublist (readAll read (x ++ u)) := by
  rw [h.readAll_fenced ht hslash]
  exact ((List.Sublist.refl _).append (h.readAll_sublist_of_suffix hrest)).trans (h.readAll_append_sublist x u)

/-- Behind a text in which nothing is read and a fence the first construct is the first one of the rest. -/
theorem find?_fenced {x : Text} (hx : Misses read x) (u : Text) :
    find? read (x ++ (t ++ u)) = (find? read u).map fun f => { f with before := x ++ (t ++ f.before) } := by
  have hfind := h.find?_append (s := u) (x ++ t) fun y hy hne => by
    rcases suffix_append_cases hy with hy | ⟨z, hz, hzx, rfl⟩
    · obtain ⟨c, y, rfl⟩ := List.exists_cons_of_ne_nil hne
      exact h.read_of_ne (fun hc => hslash (hy.subset (hc ▸ List.mem_cons_self))) (y ++ u)
    · rw [List.append_assoc, ht none z u hz, hx none z hzx, Option.map_none]
  rw [List.append_assoc] at hfind
  rw [hfind]
  simp only [List.append_assoc]

end Fenced

/-- A text is done with up to a fence in front of which no more is read. -/
theorem done_fenced {x y t : Text} (hx : Done read x) (hy : Misses read y) (ht : Fences read t) (hslash : '\\' ∉ t) :
    Done read (x ++ (y ++ t)) := by
  intro u
  rw [List.append_assoc, List.append_assoc, hx, h.find?_fenced ht hslash hy, Option.map_map]
  cases find? read u <;> simp

end Slashed

end Text

/-! ## Tokens in the places of constructs -/

/-- Line ends, if any, and a capital L at which no marker goes on: how what takes the place of a construct begins. -/
structure Placed (t : Text) : Prop where
  begins : ∃ gap v, t = gap ++ 'L' :: v ∧ ∀ c ∈ gap, c = '\n'
  plain : ∀ c ∈ t, isPlaceholderChar c = true

namespace Placed

variable {t : Text}

theorem not_mem (h : Placed t) {c : Char} (hc : isPlaceholderChar c = false) : c ∉ t := fun hm => by
  rw [h.plain c hm] at hc
  cases hc

theorem slash_not_mem (h : Placed t) : '\\' ∉ t := h.not_mem (by decide)

end Placed

theorem placed_token (kind : Block.Kind) (n : Nat) (ownLine : Bool) :
    Placed (if ownLine then "\n\n" ++ Block.Token.ofNumber kind n ++ "\n\n" else Block.Token.ofNumber kind n) := by
  have htoken : ∀ c ∈ Block.Token.ofNumber kind n, isPlaceholderChar c = true :=
    fun c hc => Block.Token.isPlaceholderChar_of_mem hc
  obtain ⟨v, hv⟩ : ∃ v, Block.Token.ofNumber kind n = 'L' :: v := ⟨_, rfl⟩
  cases ownLine with
  | false => exact ⟨⟨[], v, hv, by simp⟩, htoken⟩
  | true =>
    have hbreak : ∀ c ∈ "\n\n".toList, isPlaceholderChar c = true := by decide
    refine ⟨⟨"\n\n", v ++ "\n\n", by simp [hv], by decide⟩, fun c hc => ?_⟩
    simp only [if_true, List.mem_append] at hc
    rcases hc with (hc | hc) | hc
    · exact hbreak c hc
    · exact htoken c hc
    · exact hbreak c hc

/-- Storing a fragment counts it and gives a token for its place. -/
theorem Bench.run_register (kind : Block.Kind) (fragment : Text) (ownLine : Bool) (b : BenchState) :
    ∃ t b', (Bench.register kind fragment ownLine).run.run b = (.ok t, b') ∧ Placed t ∧ b'.extracted = b.extracted + 1 :=
  ⟨_, _, rfl, placed_token kind _ ownLine, rfl⟩

/-- The token of a fragment that stands in a line begins with a letter. -/
theorem Bench.run_register_inLine (kind : Block.Kind) (fragment : Text) (b : BenchState) :
    ∃ v b', (Bench.register kind fragment false).run.run b = (.ok ('L' :: v), b') ∧ Placed ('L' :: v) ∧
      b'.extracted = b.extracted + 1 := by
  obtain ⟨v, hv⟩ : ∃ v, Block.Token.ofNumber kind (b.table.issued + 1) = 'L' :: v := ⟨_, rfl⟩
  obtain ⟨t, b', hrun, ht, hb⟩ := Bench.run_register kind fragment false b
  obtain rfl : t = 'L' :: v := by
    rw [← hv]
    cases hrun
    rfl
  exact ⟨v, b', hrun, ht, hb⟩

namespace Marker

variable {names : List Text} {name t : Text}

/-- A marker does not reach into a token: it has no capital L, and it ends with a brace. -/
theorem after?_fenced {word : Text} (hword : 'L' ∉ word) (hname : 'L' ∉ name) (ht : Placed t) {y : Text} (hne : y ≠ [])
    (u : Text) : after? word name (y ++ (t ++ u)) = (after? word name y).map (· ++ (t ++ u)) := by
  cases hr : after? word name y with
  | some rest =>
    obtain ⟨gap, hgap, rfl⟩ := after?_eq_some_iff.1 hr
    rw [List.append_assoc, after?_source hgap, Option.map_some]
  | none =>
    refine Option.eq_none_iff_forall_ne_some.2 fun rest hlong => ?_
    obtain ⟨gap, hgap, hs⟩ := after?_eq_some_iff.1 hlong
    obtain ⟨lines, v, rfl, hlines⟩ := ht.begins
    have hsource : source word gap name = '\\' :: (word ++ (gap ++ '{' :: name)) ++ ['}'] := by simp [source]
    have hplain : 'L' ∉ source word gap name := by
      have hblank : 'L' ∉ gap := fun hm => absurd (hgap _ hm) (by decide)
      simp [source, hword, hname, hblank]
    rcases List.append_eq_append_iff.1 hs with ⟨z, hz, hrest⟩ | ⟨z, rfl, -⟩
    · -- the part of the marker behind `y` ends with a brace, so it is more than line ends
      have hbrace : '}' ∈ z := by
        rcases List.eq_nil_or_concat z with rfl | ⟨z', c, rfl⟩
        · have hread : after? word name (source word gap name ++ []) = some [] := after?_source hgap []
          rw [List.append_nil] at hz hread
          rw [hz, hr] at hread
          cases hread
        · rw [List.concat_eq_append, ← List.append_assoc, hsource] at hz
          obtain rfl : '}' = c := (List.cons.inj (List.append_inj_right' hz rfl)).1
          simp
      have hlong : '}' ∉ lines := fun hm => absurd (hlines _ hm) (by decide)
      rw [List.append_assoc, List.cons_append] at hrest
      rcases List.append_eq_append_iff.1 hrest with ⟨w, rfl, hw⟩ | ⟨w, rfl, -⟩
      · cases w with
        | nil =>
          rw [List.append_nil] at hbrace
          exact hlong hbrace
        | cons c w =>
          obtain rfl := (List.cons.inj hw).1
          exact hplain (hz ▸ by simp)
      · exact hlong (List.mem_append_left _ hbrace)
    · have hread : after? word name (source word gap name ++ z) = some z := after?_source hgap z
      rw [hr] at hread
      cases hread

theorem fences_either (hname : 'L' ∉ name) (ht : Placed t) : Text.Fences (either name) t := by
  intro b y u hne
  rw [either, either, after?_fenced (by decide) hname ht hne, after?_fenced (by decide) hname ht hne]
  cases after? "begin" name y with
  | some rest => rfl
  | none =>
    rw [Option.map_none, Option.map_map, Option.map_map]
    rfl

theorem fences_beginsAny (hnames : ∀ n ∈ names, 'L' ∉ n) (ht : Placed t) : Text.Fences (beginsAny names) t := by
  intro b y u hne
  induction names with
  | nil => rfl
  | cons n names ih =>
    obtain ⟨hn, hnames⟩ := List.forall_mem_cons.1 hnames
    simp only [beginsAny] at ih ⊢
    rw [List.findSome?_cons, List.findSome?_cons, after?_fenced (by decide) hn ht hne, ih hnames]
    cases after? "begin" n y <;> rfl

/-- Names at which a token stops, as all names of environments are. -/
structure Wordy (names : List Text) : Prop where
  slash : ∀ n ∈ names, '\\' ∉ n
  brace : ∀ n ∈ names, '}' ∉ n
  capital : ∀ n ∈ names, 'L' ∉ n

namespace Wordy

variable (h : Wordy names)

include h

theorem slashed : Text.Slashed (beginsAny names) := slashed_beginsAny h.slash h.brace

theorem fences (ht : Placed t) : Text.Fences (beginsAny names) t := fences_beginsAny h.capital ht

/-- What is found is a begin marker. -/
theorem source_of_find? {s : Text} {f : Text.Found Text} (hf : s.find? (beginsAny names) = some f) :
    f.value ∈ names ∧ ∃ gap, (∀ c ∈ gap, isBlank c = true) ∧ f.source = source "begin" gap f.value := by
  obtain ⟨-, -, hread⟩ := Text.Slashed.find?_eq_some (slashed h) hf
  obtain ⟨hname, gap, hgap, hsource⟩ := beginsAny_eq_some hread
  exact ⟨hname, gap, hgap, List.append_cancel_right hsource⟩

/-- The first begin marker of a text. -/
theorem find?_eq_some {s : Text} {f : Text.Found Text} (hf : s.find? (beginsAny names) = some f) :
    Text.Misses (beginsAny names) f.before ∧ f.value ∈ names ∧
      ∃ gap, (∀ c ∈ gap, isBlank c = true) ∧ s = f.before ++ (source "begin" gap f.value ++ f.after) := by
  obtain ⟨hmiss, hs, -⟩ := Text.Slashed.find?_eq_some (slashed h) hf
  obtain ⟨hname, gap, hgap, hsource⟩ := h.source_of_find? hf
  exact ⟨hmiss, hname, gap, hgap, hsource ▸ hs⟩

/-- With a token in its place a construct takes its begin marker with it. -/
theorem tally_put_lt (hname : name ∈ names) (before : Text) {gap u rest : Text} (hgap : ∀ c ∈ gap, isBlank c = true) (ht : Placed t)
    (hrest : rest <:+ u) :
    Text.tally (beginsAny names) (before ++ (t ++ rest)) <
      Text.tally (beginsAny names) (before ++ (source "begin" gap name ++ u)) := by
  have hread := beginsAny_source h.brace hgap (h.brace name hname) none u
  rw [if_pos hname] at hread
  have hslashed : Text.Slashed (beginsAny names) := slashed h
  have hsource : Text.tally (beginsAny names) (before ++ (source "begin" gap name ++ u)) =
      Text.tally (beginsAny names) before + (Text.tally (beginsAny names) u + 1) := by
    rw [← hslashed.tally_hit hread, source, List.cons_append, hslashed.tally_append_slash]
  have hle := hslashed.tally_le_of_suffix hrest
  rw [hsource, hslashed.tally_fenced (h.fences ht) ht.slash_not_mem]
  omega

/-- A token brings no begin markers with it. -/
theorem tally_put_le (before : Text) {u rest : Text} (ht : Placed t) (hrest : rest <:+ u) :
    Text.tally (beginsAny names) (before ++ (t ++ rest)) ≤ Text.tally (beginsAny names) (before ++ u) :=
  (Text.Slashed.readAll_put_sublist (slashed h) (h.fences ht) ht.slash_not_mem before hrest).length_le

end Wordy

end Marker

end Galley
