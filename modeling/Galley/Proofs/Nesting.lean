import Galley.Proofs.LeafLists
import Galley.Proofs.Markers
import Galley.Proofs.Quiet
/-!
# Nested environments are taken out innermost first

A text whose environments are properly nested is a tree of them (`Nest`). In such a text the first environment that holds
no other is the first one to end, and its token stands apart from every marker (`Clear.append_ownLine`). So taking out one
leaf after the other comes to walking over the tree and storing each environment behind those inside it (`go_store`).
-/

namespace Galley

open Block.Token (ofNumber)
open Lists (ownLine)

/-! ## Texts without markers -/

namespace Marker

/-- The word of a begin marker (`true`) or an end marker (`false`). -/
def word : Bool → Text
  | true => "begin"
  | false => "end"

/-- No marker of that sense with one of the names stands in the text. -/
def Clear (sense : Bool) (names : List Text) (s : Text) : Prop := ∀ n ∈ names, Text.Misses (reads (word sense) n) s

/-- No marker with one of the names stands in the text. -/
def Bare (names : List Text) (s : Text) : Prop := ∀ sense, Clear sense names s

/-- Names that markers are told apart by, and that hold no token on lines of its own. -/
structure Names (names : List Text) : Prop where
  slash : ∀ n ∈ names, '\\' ∉ n
  brace : ∀ n ∈ names, '}' ∉ n
  token : ∀ n ∈ names, ∀ i, ¬ ownLine (ofNumber .env i) <:+: n

/-- White space, as it may stand in a marker. -/
abbrev Blanks := { gap : Text // ∀ c ∈ gap, isBlank c = true }

variable {names : List Text} {sense : Bool} {s t u : Text}

theorem bare_iff : Bare names s ↔ ∀ n ∈ names, ∀ t ∈ s.tails, (after? "begin" n t).isNone ∧ (after? "end" n t).isNone := by
  simp only [List.mem_tails, Option.isNone_iff_eq_none]
  refine ⟨fun h n hn t ht => ⟨?_, ?_⟩, fun h sense n hn b t ht => ?_⟩
  · exact Option.map_eq_none_iff.1 (h true n hn none t ht)
  · exact Option.map_eq_none_iff.1 (h false n hn none t ht)
  · obtain ⟨hbegin, hend⟩ := h n hn t ht
    cases sense with
    | true => exact Option.map_eq_none_iff.2 hbegin
    | false => exact Option.map_eq_none_iff.2 hend

instance : Decidable (Bare names s) := decidable_of_iff _ bare_iff.symm

theorem bare_of_not_mem (hs : '\\' ∉ s) : Bare names s := by
  intro sense n _ b t ht
  refine Option.map_eq_none_iff.2 ?_
  cases hr : after? (word sense) n t with
  | none => rfl
  | some rest =>
    obtain ⟨gap, -, rfl⟩ := after?_eq_some_iff.1 hr
    exact absurd (ht.subset List.mem_cons_self) hs

theorem slash_not_mem_word : '\\' ∉ word sense := by cases sense <;> decide

theorem Clear.of_suffix (h : Clear sense names s) (ht : t <:+ s) : Clear sense names t := fun n hn => (h n hn).of_suffix ht

theorem exists_source_eq (sense : Bool) (gap : Blanks) {name : Text} (hname : '\\' ∉ name) :
    ∃ x, '\\' ∉ x ∧ ∀ u, source (word sense) gap.1 name ++ u = '\\' :: (x ++ u) :=
  ⟨_, slash_not_mem slash_not_mem_word gap.2 hname, fun _ => rfl⟩

theorem reads_other (n gap name : Text) (b : Option Char) (u : Text) :
    reads (word (!sense)) n b (source (word sense) gap name ++ u) = none := by cases sense <;> rfl

end Marker

/-- A text without a character stands on one side of it. -/
theorem infix_append_cons {x a b : Text} {c : Char} (hc : c ∉ x) (h : x <:+: a ++ c :: b) : x <:+: a ∨ x <:+: b := by
  obtain ⟨l, r, h⟩ := h
  rcases List.append_eq_append_iff.1 h with ⟨y, rfl, -⟩ | ⟨y, hy, hr⟩
  · exact .inl ⟨l, y, rfl⟩
  · cases y with
    | nil => exact .inl ⟨l, [], by simpa using hy⟩
    | cons d y =>
      obtain ⟨rfl, rfl⟩ := List.cons.inj hr
      rcases List.append_eq_append_iff.1 hy with ⟨z, -, rfl⟩ | ⟨z, -, hz⟩
      · exact absurd (List.mem_append_right z List.mem_cons_self) hc
      · cases z with
        | nil => exact absurd (hz ▸ List.mem_cons_self : c ∈ [] ++ x) hc
        | cons d z => exact .inr ⟨z, r, congrArg (· ++ r) (List.cons.inj hz).2.symm⟩

namespace Marker

variable {names : List Text} {sense : Bool} {s t u : Text}

section Names

variable (hnames : Names names)

include hnames

theorem Names.slashed {n : Text} (hn : n ∈ names) : Text.Slashed (reads (word sense) n) :=
  @slashed_reads n (word sense) slash_not_mem_word (hnames.slash n hn)

/-- An environment that begins or ends between two texts adds no marker of the other sense. -/
theorem Clear.append_source (hs : Clear (!sense) names s) (ht : Clear (!sense) names t) (gap : Blanks) {name : Text}
    (hname : name ∈ names) : Clear (!sense) names (s ++ (source (word sense) gap.1 name ++ t)) := by
  intro n hn
  obtain ⟨x, hx, hsource⟩ := exists_source_eq sense gap (hnames.slash name hname)
  have hslashed : Text.Slashed (reads (word (!sense)) n) := hnames.slashed hn
  have hmarker : Text.Misses (reads (word (!sense)) n) (source (word sense) gap.1 name ++ t) := by
    intro b u hu
    rw [hsource] at hu
    rcases List.suffix_cons_iff.1 hu with rfl | hu
    · rw [← hsource, reads_other]
    · exact hslashed.misses_of_not_mem_append hx (ht n hn) b u hu
  rw [hsource] at hmarker ⊢
  exact hslashed.misses_append_slash (hs n hn) hmarker

omit hnames in
theorem mem_ownLine (i : Nat) : 'L' ∈ ownLine (ofNumber .env i) := by
  refine List.mem_append_left _ (List.mem_append_right _ ?_)
  exact List.mem_append_left _ (List.mem_append_left _ List.mem_cons_self)

omit hnames in
theorem not_mem_ownLine {c : Char} (hc : Block.isTokenChar c = false) (hline : c ≠ '\n') (i : Nat) :
    c ∉ ownLine (ofNumber .env i) := by
  intro h
  rcases List.mem_append.1 h with h | h
  · rcases List.mem_append.1 h with h | h
    · simp [hline] at h
    · rw [Block.isTokenChar_of_mem h] at hc
      cases hc
  · simp [hline] at h

theorem Names.not_infix_source (i : Nat) (gap : Blanks) {n : Text} (hn : n ∈ names) :
    ¬ ownLine (ofNumber .env i) <:+: source (word sense) gap.1 n := by
  intro h
  have hsource : source (word sense) gap.1 n = ('\\' :: (word sense ++ gap.1)) ++ '{' :: (n ++ '}' :: []) := by simp [source]
  rw [hsource] at h
  rcases infix_append_cons (not_mem_ownLine (by decide) (by decide) i) h with h | h
  · rcases List.mem_cons.1 (h.subset (mem_ownLine i)) with h | h
    · cases h
    · rcases List.mem_append.1 h with h | h
      · revert h
        cases sense <;> decide
      · exact absurd (gap.2 _ h) (by decide)
  · rcases infix_append_cons (not_mem_ownLine (by decide) (by decide) i) h with h | h
    · exact hnames.token n hn i h
    · exact absurd (h.subset (mem_ownLine i)) List.not_mem_nil

/-- No marker reaches over a token on lines of its own. -/
theorem Clear.append_ownLine (hs : Clear sense names s) (ht : Clear sense names t) (i : Nat) :
    Clear sense names (s ++ (ownLine (ofNumber .env i) ++ t)) := by
  intro n hn b u hu
  have hslashed : Text.Slashed (reads (word sense) n) := hnames.slashed hn
  rcases Text.suffix_append_cases hu with hu | ⟨y, -, hy, rfl⟩
  · exact hslashed.misses_of_not_mem_append (not_mem_ownLine (by decide) (by decide) i) (ht n hn) b u hu
  · have hnone : after? (word sense) n y = none := Option.map_eq_none_iff.1 (hs n hn b y hy)
    refine Option.map_eq_none_iff.2 ?_
    cases hr : after? (word sense) n (y ++ (ownLine (ofNumber .env i) ++ t)) with
    | none => rfl
    | some rest =>
      obtain ⟨gap, hgap, he⟩ := after?_eq_some_iff.1 hr
      have hshort (z : Text) : source (word sense) gap n ++ z ≠ y := by
        rintro rfl
        rw [after?_source hgap] at hnone
        cases hnone
      rcases List.append_eq_append_iff.1 he with ⟨z, hz, hmore⟩ | ⟨z, hz, -⟩
      · -- the marker ends in what follows `y`, so not before the end of the token
        rcases List.append_eq_append_iff.1 hmore with ⟨w, rfl, -⟩ | ⟨w, hw, -⟩
        · exact absurd ⟨y, w, by rw [hz, List.append_assoc]⟩ (hnames.not_infix_source i ⟨gap, hgap⟩ hn)
        · have hlast : (y ++ z).getLast? = some '}' := by
            have hsource : y ++ z = ('\\' :: (word sense ++ (gap ++ '{' :: n))) ++ ['}'] := by simp [← hz, source]
            rw [hsource, List.getLast?_concat]
          cases z with
          | nil => exact absurd (by rw [List.append_nil] at hz ⊢; exact hz) (hshort [])
          | cons c z =>
            rw [List.getLast?_append_cons] at hlast
            have hbrace : '}' ∈ ownLine (ofNumber .env i) := hw ▸ List.mem_append_left w (List.mem_of_getLast? hlast)
            exact absurd hbrace (not_mem_ownLine (by decide) (by decide) i)
      · exact absurd hz.symm (hshort z)

end Names

theorem Clear.misses_beginsAny (h : Clear true names s) : Text.Misses (beginsAny names) s := by
  intro b t ht
  refine List.findSome?_eq_none_iff.2 fun n hn => Option.map_eq_none_iff.2 ?_
  exact Option.map_eq_none_iff.1 (h n hn b t ht)

theorem Bare.misses_either (h : Bare names s) {n : Text} (hn : n ∈ names) : Text.Misses (either n) s := by
  intro b t ht
  have hbegin : after? "begin" n t = none := Option.map_eq_none_iff.1 (h true n hn b t ht)
  have hend : after? "end" n t = none := Option.map_eq_none_iff.1 (h false n hn b t ht)
  rw [either, hbegin, hend]
  rfl

/-! ## The first leaf -/

section Leaf

open Environment (at? leafFrom leaf?)

variable (hnames : Names names) {name x : Text} (hname : name ∈ names) (gap : Blanks)

include hnames

omit hnames in
theorem Clear.either_cut (hx : Clear false names x) {a : Text} (ha : a ∈ names) (t : Text) :
    .hit false t ∉ Text.cut (either a) x := by
  intro ht
  rcases Text.mem_cut ht with ⟨c, -, hc⟩ | ⟨sense, b, u, rest, he, hu, hr⟩
  · cases hc
  · obtain ⟨rfl, -⟩ := Piece.hit.inj he
    obtain ⟨gap, hgap, rfl⟩ := either_eq_some hr
    have hnone := hx a ha b _ hu
    rw [reads, show word false = "end".toList from rfl] at hnone
    rw [if_neg Bool.false_ne_true, after?_source hgap] at hnone
    cases hnone

include hname

theorem cut_either_source {a : Text} (ha : a ∈ names) (w : Text) : ∃ ps, (∀ t, .hit false t ∉ ps) ∧
    Piece.sources ps = source "begin" gap.1 name ∧
    Text.cut (either a) (source "begin" gap.1 name ++ w) = ps ++ Text.cut (either a) w := by
  have heither : Text.Slashed (either a) := slashed_either (hnames.slash a ha)
  by_cases he : name = a
  · subst he
    refine ⟨[.hit true (source "begin" gap.1 name)], by simp, by simp [Piece.sources, Piece.source], ?_⟩
    exact heither.forward.cut_hit (either_begin gap.2 none w) rfl
  · obtain ⟨y, hslash, hy⟩ := exists_source_eq true gap (hnames.slash name hname)
    have hy (u : Text) : source "begin" gap.1 name ++ u = '\\' :: (y ++ u) := hy u
    have hnone : either a none (source "begin" gap.1 name ++ w) = none := by
      rw [either, after?_source_of_ne gap.2 (hnames.brace a ha) (hnames.brace name hname) he, after?_end_begin]
      rfl
    have hsource := hy []
    rw [List.append_nil, List.append_nil] at hsource
    refine ⟨(source "begin" gap.1 name).map .char, by simp, ?_, ?_⟩
    · rw [Piece.sources, List.flatMap_map]
      exact List.flatMap_singleton' _
    rw [hy] at hnone ⊢
    rw [heither.forward.cut_cons hnone, heither.cut_append_of_not_mem hslash, hsource]
    rfl

/-- An environment that begins in front of another, with no end marker between them, holds the begin marker of that one. -/
theorem occurs_of_at? (hx : Clear false names x) {a before w : Text} (ha : a ∈ names) (gap' : Blanks) {e : Environment}
    (he : at? a before (source "begin" gap'.1 a ++ (x ++ (source "begin" gap.1 name ++ w))) = some e) :
    e.body.occurs (beginsAny names) = true := by
  have heither : Text.Slashed (either a) := slashed_either (hnames.slash a ha)
  rw [at?, after?_source gap'.2] at he
  obtain ⟨⟨body, closing, rest⟩, hclose, rfl⟩ := Option.map_eq_some_iff.1 he
  obtain ⟨ps, hps, hsource, hcut⟩ := cut_either_source hnames hname gap ha w
  obtain ⟨y, -, hy⟩ := exists_source_eq true gap (hnames.slash name hname)
  have hy : source "begin" gap.1 name ++ w = '\\' :: (y ++ w) := hy w
  rw [hy, heither.cut_append_slash, ← hy, hcut, ← List.append_assoc] at hclose
  have hends : ∀ t, .hit false t ∉ Text.cut (either a) x ++ ps := by
    intro t ht
    rcases List.mem_append.1 ht with ht | ht
    · exact hx.either_cut ha t ht
    · exact hps t ht
  obtain ⟨more, hbody⟩ := Lists.prefix_of_close hends hclose
  have hbegins : Text.Slashed (beginsAny names) := slashed_beginsAny hnames.slash hnames.brace
  have hread : beginsAny names none (source "begin" gap.1 name ++ more) ≠ none := by
    rw [beginsAny_source hnames.brace gap.2 (hnames.brace name hname), if_pos hname]
    exact Option.some_ne_none _
  refine Lists.occurs_of_suffix hbegins.forward (hbegins.read_nil none) ⟨x, ?_⟩ hread
  rw [← hbody, Piece.sources, List.flatMap_append, ← Piece.sources, ← Piece.sources, Text.sources_cut, hsource, List.append_assoc]

/-- Environments that have begun and hold the leaf are passed over. -/
theorem leafFrom_append (hx : Clear false names x) (w : Text) (passed : List Text) :
    ∃ passed', passed'.reverse.flatten = passed.reverse.flatten ++ x ∧
      leafFrom names passed (Text.cut (beginsAny names) (x ++ (source "begin" gap.1 name ++ w))) =
        leafFrom names passed' (Text.cut (beginsAny names) (source "begin" gap.1 name ++ w)) := by
  have hbegins : Text.Slashed (beginsAny names) := slashed_beginsAny hnames.slash hnames.brace
  obtain ⟨y, -, hy⟩ := exists_source_eq true gap (hnames.slash name hname)
  have hy : source "begin" gap.1 name ++ w = '\\' :: (y ++ w) := hy w
  induction x using Text.Firm.induct (Text.Slashed.firm hbegins) generalizing passed with
  | nil => exact ⟨passed, by simp, rfl⟩
  | char c s hr ih =>
    obtain ⟨passed', hpassed, hleaf⟩ := ih (hx.of_suffix (List.suffix_cons c s)) ([c] :: passed)
    have hlong : beginsAny names none (c :: (s ++ (source "begin" gap.1 name ++ w))) = none := by
      rw [hy, ← List.cons_append, hbegins.read_append_slash (List.cons_ne_nil c s), hr, Option.map_none]
    refine ⟨passed', by simpa using hpassed, ?_⟩
    rw [List.cons_append, hbegins.forward.cut_cons hlong, leafFrom, hleaf]
  | hit s a rest hr ih =>
    obtain ⟨ha, gap', hgap', rfl⟩ := beginsAny_eq_some hr
    have hrest : Clear false names rest := hx.of_suffix (List.suffix_append _ rest)
    obtain ⟨passed', hpassed, hleaf⟩ := ih hrest (source "begin" gap' a :: passed)
    have hread : beginsAny names none (source "begin" gap' a ++ (rest ++ (source "begin" gap.1 name ++ w))) =
        some (a, rest ++ (source "begin" gap.1 name ++ w)) := by
      rw [beginsAny_source hnames.brace hgap' (hnames.brace a ha), if_pos ha]
    have hcut : Text.cut (beginsAny names) (source "begin" gap' a ++ (rest ++ (source "begin" gap.1 name ++ w))) =
        .hit a (source "begin" gap' a) :: Text.cut (beginsAny names) (rest ++ (source "begin" gap.1 name ++ w)) :=
      hbegins.forward.cut_hit hread rfl
    refine ⟨passed', by simpa using hpassed, ?_⟩
    rw [List.append_assoc, hcut, leafFrom, Text.sources_cut]
    -- an environment that begins here is no leaf, closed or not
    split
    · rename_i e he
      rw [if_pos (occurs_of_at? hnames hname gap hrest ha ⟨gap', hgap'⟩ he)]
      exact hleaf
    · exact hleaf

/-- The leaf is found. -/
theorem leaf?_source (hx : Clear false names x) {body : Text} (hbody : Bare names body) (gap' : Blanks) (w : Text) :
    leaf? names (x ++ (source "begin" gap.1 name ++ (body ++ (source "end" gap'.1 name ++ w)))) =
      some ⟨name, x, source "begin" gap.1 name, body, source "end" gap'.1 name, w⟩ := by
  have hbegins : Text.Slashed (beginsAny names) := slashed_beginsAny hnames.slash hnames.brace
  have heither : Text.Slashed (either name) := slashed_either (hnames.slash name hname)
  obtain ⟨passed, hpassed, hleaf⟩ := leafFrom_append hnames hname gap hx (body ++ (source "end" gap'.1 name ++ w)) []
  rw [List.reverse_nil, List.flatten_nil, List.nil_append] at hpassed
  have hread : beginsAny names none (source "begin" gap.1 name ++ (body ++ (source "end" gap'.1 name ++ w))) =
      some (name, body ++ (source "end" gap'.1 name ++ w)) := by
    rw [beginsAny_source hnames.brace gap.2 (hnames.brace name hname), if_pos hname]
  have hcut : Text.cut (beginsAny names) (source "begin" gap.1 name ++ (body ++ (source "end" gap'.1 name ++ w))) =
      .hit name (source "begin" gap.1 name) :: Text.cut (beginsAny names) (body ++ (source "end" gap'.1 name ++ w)) :=
    hbegins.forward.cut_hit hread rfl
  have hend : Text.cut (either name) (source "end" gap'.1 name ++ w) =
      .hit false (source "end" gap'.1 name) :: Text.cut (either name) w :=
    heither.forward.cut_hit (either_end gap'.2 none w) rfl
  have hclose : Environment.close 0 (Text.cut (either name) (body ++ (source "end" gap'.1 name ++ w))) =
      some (body, source "end" gap'.1 name, w) := by
    obtain ⟨y, -, hy⟩ := exists_source_eq false gap' (hnames.slash name hname)
    have hy : source "end" gap'.1 name ++ w = '\\' :: (y ++ w) := hy w
    rw [hy, heither.cut_append_slash, ← hy, hend, (hbody.misses_either hname).cut_eq, Row.close_map_char, Environment.close,
      Text.sources_cut, Option.map_some]
    dsimp only
    rw [List.append_nil]
  have hsome : names.isEmpty = false := by
    cases names with
    | nil => cases hname
    | cons => rfl
  rw [leaf?, hsome, if_neg Bool.false_ne_true, hleaf, hcut, leafFrom, Text.sources_cut, at?, after?_source gap.2]
  dsimp only
  rw [hclose, Option.map_some]
  dsimp only
  rw [(hbody true).misses_beginsAny.occurs_eq, if_neg Bool.false_ne_true, hpassed, Text.upTo_append_rest]

end Leaf

end Marker

/-! ## Results of work -/

namespace Bench

variable {α β : Type} {work : Bench α} {P : α → Prop}

/-- Whatever the work gives has the property. -/
def Gives (work : Bench α) (P : α → Prop) : Prop := ∀ b a b', work.run.run b = (.ok a, b') → P a

namespace Gives

theorem pure {a : α} (h : P a) : Gives (Pure.pure a) P := by
  intro b c b' hrun
  obtain ⟨rfl, -⟩ := run_pure_ok hrun
  exact h

theorem bind {next : α → Bench β} {Q : β → Prop} (h : Gives work P) (hn : ∀ a, P a → Gives (next a) Q) :
    Gives (work >>= next) Q := by
  intro b c b' hrun
  obtain ⟨a, b₁, ha, hc⟩ := run_bind_ok hrun
  exact hn a (h b a b₁ ha) b₁ c b' hc

theorem any (work : Bench α) : Gives work fun _ => True := fun _ _ _ _ => trivial

/-- What is done with a result makes no difference for the results that do not come about. -/
theorem bind_congr {next next' : α → Bench β} (h : Gives work P) (hn : ∀ a, P a → next a = next' a) :
    work >>= next = work >>= next' := by
  refine ExceptT.ext (StateT.ext fun b => ?_)
  rw [run_bind, run_bind]
  split
  · rename_i a b' ha
    rw [hn a (h b a b' ha)]
  · rfl

end Gives

theorem gives_register (kind : Block.Kind) (fragment : Text) :
    Gives (register kind fragment) fun t => ∃ i, t = Lists.ownLine (ofNumber kind i) := by
  intro b t b' hrun
  cases hrun
  exact ⟨b.table.issued + 1, rfl⟩

end Bench

/-! ## Trees of environments -/

section Trees

open Marker (Bare Blanks Clear Names source)

/-- A text whose environments are properly nested: they end in the order in which they stand in the tree, those inside an
    environment before it, and no other marker of their names stands in the text. -/
inductive Nest (names : List Text) where
  | text (t : { t : Text // Bare names t })
  | environment (t : { t : Text // Bare names t }) (name : { n : Text // n ∈ names }) (gap : Blanks) (inner : Nest names)
      (gap' : Blanks) (rest : Nest names)

namespace Nest

variable {names : List Text}

/-- The text. -/
def source : Nest names → Text
  | text t => t.1
  | environment t name gap inner gap' rest =>
    t.1 ++ (Marker.source "begin" gap.1 name.1 ++ (inner.source ++ (Marker.source "end" gap'.1 name.1 ++ rest.source)))

/-- How many environments there are. -/
def count : Nest names → Nat
  | text _ => 0
  | environment _ _ _ inner _ rest => inner.count + rest.count + 1

/-- The environments are stored one by one, each behind those inside it. -/
def store (render : Text → Text → Bench Text) : Nest names → Bench Text
  | text t => pure t.1
  | environment t name _ inner _ rest => do
    let body ← inner.store render
    let token ← Bench.register .env (← render name.1 body)
    let rest ← rest.store render
    pure (t.1 ++ (token ++ rest))

/-- One round takes out the first leaf. -/
def round (names : List Text) (render : Text → Text → Bench Text) (s : Text) : Bench (Option Text) :=
  match Environment.leaf? names s with
  | none => pure none
  | some e => do
    let token ← Bench.register .env (← render e.name e.body)
    pure (some (e.replaceBy token))

/-- In front of a text without end markers these texts add none. -/
def Leads (names : List Text) (u : Text) : Prop := ∀ v, Clear false names v → Clear false names (u ++ v)

/-- The text with tokens for its outermost environments, when `issued` tokens have been handed out before. -/
def placed : Nest names → (issued : Nat) → Text
  | text t, _ => t.1
  | environment t _ _ inner _ rest, issued =>
    t.1 ++ (Lists.ownLine (ofNumber .env (issued + inner.count + 1)) ++ rest.placed (issued + inner.count + 1))

/-- The environments in the order in which they end: their names and bodies, with tokens for those inside. -/
def ended : Nest names → (issued : Nat) → List (Text × Text)
  | text _, _ => []
  | environment _ name _ inner _ rest, issued =>
    inner.ended issued ++ (name.1, inner.placed issued) :: rest.ended (issued + inner.count + 1)

theorem length_ended (d : Nest names) (issued : Nat) : (d.ended issued).length = d.count := by
  induction d generalizing issued with
  | text t => rfl
  | environment t name gap inner gap' rest ihinner ihrest =>
    rw [ended, List.length_append, List.length_cons, ihinner, ihrest, count]
    omega

theorem not_mem_placed {c : Char} (hc : Block.isTokenChar c = false) (hline : c ≠ '\n') {d : Nest names}
    (h : c ∉ d.source) (issued : Nat) :
    c ∉ d.placed issued := by
  induction d generalizing issued with
  | text t => exact h
  | environment t name gap inner gap' rest _ ih =>
    simp only [source, placed, List.mem_append, not_or] at h ⊢
    exact ⟨h.1, Marker.not_mem_ownLine hc hline _, ih h.2.2.2.2 _⟩

theorem not_mem_ended {c : Char} (hc : Block.isTokenChar c = false) (hline : c ≠ '\n') {d : Nest names}
    (h : c ∉ d.source) (issued : Nat) :
    ∀ e ∈ d.ended issued, c ∉ e.2 := by
  induction d generalizing issued with
  | text t => exact fun e he => absurd he List.not_mem_nil
  | environment t name gap inner gap' rest ihinner ihrest =>
    simp only [source, List.mem_append, not_or] at h
    obtain ⟨-, -, hinner, -, hrest⟩ := h
    exact List.forall_mem_append.2 ⟨ihinner hinner issued,
      List.forall_mem_cons.2 ⟨not_mem_placed hc hline hinner issued, ihrest hrest _⟩⟩

variable (hnames : Names names) (render : Text → Text → Bench Text)

include hnames

theorem bare_placed (d : Nest names) (issued : Nat) : Bare names (d.placed issued) := by
  induction d generalizing issued with
  | text t => exact t.2
  | environment t name gap inner gap' rest _ ih => exact fun sense => (t.2 sense).append_ownLine hnames (ih _ sense) _

theorem gives_store (d : Nest names) : Bench.Gives (d.store render) (Bare names) := by
  induction d with
  | text t => exact .pure t.2
  | environment t name gap inner gap' rest _ ih =>
    refine (Bench.Gives.any _).bind fun body _ => (Bench.Gives.any _).bind fun html _ => ?_
    refine (Bench.gives_register .env html).bind fun token htoken => ih.bind fun r hr => .pure fun sense => ?_
    obtain ⟨i, rfl⟩ := htoken
    exact (t.2 sense).append_ownLine hnames (hr sense) i

variable (construct : Text) (cap : Int)

omit hnames in
/-- A round takes out the leaf that it finds. -/
theorem go_leaf {s : Text} {e : Environment} (h : Environment.leaf? names s = some e) (n : Nat) :
    Bench.rounds.go construct cap (round names render) (n + 1) s = render e.name e.body >>= fun html =>
      Bench.register .env html >>= fun token => Bench.rounds.go construct cap (round names render) n (e.replaceBy token) := by
  rw [Bench.rounds.go, round, h]
  simp only [bind_assoc, pure_bind]

omit hnames in
theorem go_none {s : Text} (h : Environment.leaf? names s = none) (n : Nat) :
    Bench.rounds.go construct cap (round names render) (n + 1) s = pure s := by
  rw [Bench.rounds.go, round, h]
  rfl

theorem go_succ {x : Text} (hx : Clear false names x) {name : Text} (hname : name ∈ names) {body : Text} (hbody : Bare names body)
    (gap gap' : Blanks) (w : Text) (n : Nat) :
    Bench.rounds.go construct cap (round names render) (n + 1)
        (x ++ (Marker.source "begin" gap.1 name ++ (body ++ (Marker.source "end" gap'.1 name ++ w)))) =
      render name body >>= fun html => Bench.register .env html >>= fun token =>
        Bench.rounds.go construct cap (round names render) n (x ++ (token ++ w)) := by
  rw [go_leaf render construct cap (Marker.leaf?_source hnames hname gap hx hbody gap' w)]
  simp only [Environment.replaceBy, List.append_assoc]

omit hnames in
theorem Leads.append {u u' : Text} (h : Leads names u) (h' : Leads names u') : Leads names (u ++ u') := by
  intro v hv
  rw [List.append_assoc]
  exact h _ (h' v hv)

theorem leads_source {t : Text} (ht : Bare names t) (gap : Blanks) {name : Text} (hname : name ∈ names) :
    Leads names (t ++ Marker.source "begin" gap.1 name) := by
  intro v hv
  rw [List.append_assoc]
  exact Clear.append_source hnames (show Clear (!true) names t from ht false) hv gap hname

theorem leads_ownLine {t : Text} (ht : Bare names t) (i : Nat) : Leads names (t ++ Lists.ownLine (ofNumber .env i)) := by
  intro v hv
  rw [List.append_assoc]
  exact (ht false).append_ownLine hnames hv i

/-- A tree of environments between other text is taken out in as many rounds as it holds environments. -/
theorem go_store (d : Nest names) {u : Text} (hu : Leads names u) (v : Text) (n : Nat) :
    Bench.rounds.go construct cap (round names render) (n + d.count) (u ++ (d.source ++ v)) =
      d.store render >>= fun t => Bench.rounds.go construct cap (round names render) n (u ++ (t ++ v)) := by
  induction d generalizing u v n with
  | text t => rw [store, pure_bind]; rfl
  | environment t name gap inner gap' rest ihinner ihrest =>
    have hinner := ihinner (hu.append (leads_source hnames t.2 gap name.2))
      (Marker.source "end" gap'.1 name.1 ++ (rest.source ++ v)) (n + rest.count + 1)
    have hcount : n + rest.count + 1 + inner.count = n + (environment t name gap inner gap' rest).count := by
      rw [count]
      omega
    rw [hcount] at hinner
    simp only [source, store, List.append_assoc, bind_assoc, pure_bind] at hinner ⊢
    rw [hinner]
    refine (gives_store hnames render inner).bind_congr fun body hbody => ?_
    have hround := go_succ hnames render construct cap (hu t.1 (t.2 false)) name.2 hbody gap gap'
      (rest.source ++ v) (n + rest.count)
    simp only [List.append_assoc] at hround
    rw [hround]
    refine (Bench.Gives.any _).bind_congr fun html _ => (Bench.gives_register .env html).bind_congr fun token htoken => ?_
    obtain ⟨i, rfl⟩ := htoken
    have hrest := ihrest (hu.append (leads_ownLine hnames t.2 i)) v n
    simp only [List.append_assoc] at hrest
    exact hrest

omit hnames in
theorem leaf?_bare (hsome : names ≠ []) {t : Text} (ht : Bare names t) : Environment.leaf? names t = none := by
  obtain ⟨bs, hleaf, -⟩ := Row.leafFrom_map_char names [] t []
  rw [List.append_nil] at hleaf
  rw [Environment.leaf?, if_neg (mt List.isEmpty_iff.1 hsome), (ht true).misses_beginsAny.cut_eq, hleaf]
  rfl

/-- As many rounds as there are environments take out all of them; when none is left to spare, notice is given. -/
theorem rounds_store (hsome : names ≠ []) (d : Nest names) (hcap : d.count ≤ cap) :
    Bench.rounds construct cap (round names render) d.source = d.store render >>= fun t =>
      (if cap.toNat = d.count then Bench.notify (.capReached construct cap) else pure ()) >>= fun _ => pure t := by
  have hleads : Leads names [] := fun v hv => hv
  have hrounds := go_store hnames render construct cap d hleads [] (cap.toNat - d.count)
  have hcount : cap.toNat - d.count + d.count = cap.toNat := by omega
  simp only [List.nil_append, List.append_nil, hcount] at hrounds
  rw [Bench.rounds, hrounds]
  refine (gives_store hnames render d).bind_congr fun t ht => ?_
  by_cases hlast : cap.toNat = d.count
  · rw [hlast, Nat.sub_self, if_pos rfl]
    rfl
  · obtain ⟨n, hn⟩ : ∃ n, cap.toNat - d.count = n + 1 := ⟨cap.toNat - d.count - 1, by omega⟩
    rw [hn, if_neg hlast, go_none render construct cap (leaf?_bare hsome ht), pure_bind]

end Nest

end Trees

end Galley
