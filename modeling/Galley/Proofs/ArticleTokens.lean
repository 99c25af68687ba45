import Galley.Proofs.Rewriting
import Galley.Proofs.TokenSeams
import Galley.Proofs.TokensAround
/-!
# No token twice in an article

Title, author and date are read out of a document and written in front of its body, from which the commands are taken out. What
is read and what is taken out is the same wherever the command stands in front of the body, or nothing but spaces and tabs
stands in front of its groups (`Reading.Apart`); then no token of the document is in its article twice
(`rewrite_tokens_nodup`).
-/

namespace Galley

namespace Group

/-- Where a bracket group opens, no brace group does. -/
theorem read?_brace_of_error {s : Text} {e : Unclosed} (h : read .bracket s = .error e) : read? .brace s = none := by
  unfold read at h
  split at h
  · cases h
  · rename_i c rest hrest
    split at h
    · rename_i hc
      have hne : c ≠ Delimiter.brace.opener := by
        rw [hc]
        decide
      rw [read?, read, hrest]
      simp [hne]
    · cases h

end Group

namespace Article

open Block (Bears Struck Strikable Seam)
open Text (Letters)

/-! ## Readings -/

/-- A metadata command as it is read: its groups, and the text around it. -/
structure Reading where
  before : Text
  entry : Entry
  after : Text

/-- The first `name` of a text, if an argument of it can be read. -/
def reading? (name s : Text) : Option Reading :=
  (s.find? (Command.reader name)).bind fun f =>
    match Group.read? .bracket f.after with
    | none => (Group.read? .brace f.after).map fun (argument, rest) => ⟨f.before, ⟨f.after.takeWhile isGap, none, argument⟩, rest⟩
    | some (short, behind) => (Group.read? .brace behind).map fun (argument, rest) =>
      ⟨f.before, ⟨f.after.takeWhile isGap, some (short, behind.takeWhile isGap), argument⟩, rest⟩

variable {ts : List Text} {s name v : Text} {r r' : Reading}

theorem gap_of_takeWhile {s : Text} : ∀ c ∈ s.takeWhile isGap, isGap c = true :=
  fun c hc => List.all_eq_true.1 List.all_takeWhile c hc

/-- A command is read where it stands. -/
theorem find?_command {f : Text.Found Unit} (h : s.find? (Command.reader name) = some f) :
    s = f.before ++ '\\' :: (name ++ f.after) := by
  have main (s : Text) (b : Option Char) (f : Text.Found Unit) (h : Text.findFrom (Command.reader name) b s = some f) :
      s = f.before ++ '\\' :: (name ++ f.after) := by
    induction s generalizing b f with
    | nil => cases h
    | cons c s ih =>
      rw [Text.findFrom] at h
      cases hr : Command.reader name b (c :: s) with
      | some r =>
        obtain ⟨t, ht, he⟩ := Option.map_eq_some_iff.1 hr
        rw [hr] at h
        cases he
        obtain rfl := Option.some.inj h
        exact Command.after?_eq ht
      | none =>
        rw [hr] at h
        obtain ⟨g, hg, rfl⟩ := Option.map_eq_some_iff.1 h
        exact congrArg (c :: ·) (ih _ g hg)
  exact main s none f h

/-- The text of a reading, whose groups close where they are said to close. -/
theorem reading?_eq_some (h : reading? name s = some r) : s = r.before ++ (r.entry.source name ++ r.after) ∧ r.entry.Closed := by
  obtain ⟨f, hf, h⟩ := Option.bind_eq_some_iff.1 h
  have hs := find?_command hf
  have hargument {t a rest : Text} (h : Group.read? .brace t = some (a, rest)) :
      t = t.takeWhile isGap ++ '{' :: (a ++ '}' :: rest) ∧ Group.Progress.run (.start .brace) a = some (.start .brace) ∧
        ∀ n, depth (n, false) a = some (n, false) := by
    obtain ⟨ht, hinside⟩ := Group.read?_groups h
    exact ⟨ht, Group.run_of_inside? hinside, depth_braceRest hinside⟩
  split at h
  · obtain ⟨⟨a, rest⟩, ha, rfl⟩ := Option.map_eq_some_iff.1 h
    obtain ⟨ht, hrun, hlevel⟩ := hargument ha
    refine ⟨?_, gap_of_takeWhile, fun x hx => by (cases hx), hrun, hlevel⟩
    rw [hs]
    conv => lhs; rw [ht]
    simp [Entry.source, Entry.groups, Entry.shortForm]
  · rename_i short behind hshort
    obtain ⟨⟨a, rest⟩, ha, rfl⟩ := Option.map_eq_some_iff.1 h
    obtain ⟨ht, hrun, hlevel⟩ := hargument ha
    obtain ⟨hbracket, hinside⟩ := Group.read?_groups hshort
    refine ⟨?_, gap_of_takeWhile, fun x hx => ?_, hrun, hlevel⟩
    · rw [hs]
      conv => lhs; rw [hbracket, ht]
      simp [Entry.source, Entry.groups, Entry.shortForm, Delimiter.opener, Delimiter.closer]
    · obtain rfl := Option.some.inj hx
      exact ⟨Group.run_of_inside? hinside, gap_of_takeWhile⟩

/-- A reading has the argument of the command, and there is one for every argument. -/
theorem map_reading? (name s : Text) : ((reading? name s).map fun r => r.entry.argument) = (argument name s).toOption.join := by
  unfold argument reading?
  cases s.find? (Command.reader name) with
  | none => rfl
  | some f =>
    have hmap (gap : Text) (short? : Option (Text × Text)) (o : Option (Text × Text)) :
        ((o.map fun (argument, rest) => (⟨f.before, ⟨gap, short?, argument⟩, rest⟩ : Reading)).map fun r => r.entry.argument) =
          o.map Prod.fst := by cases o <;> rfl
    have hlong (s : Text) : (Group.read? .brace s).map Prod.fst =
        (Group.read .brace s >>= fun long => pure (long.map Prod.fst)).toOption.join := by
      unfold Group.read?
      cases Group.read .brace s <;> rfl
    cases hshort : Group.read .bracket f.after with
    | error e =>
      have hbracket : Group.read? .bracket f.after = none := by rw [Group.read?, hshort]
      simp only [Option.bind_some, hbracket, hmap, hshort, Group.read?_brace_of_error hshort]
      rfl
    | ok short =>
      simp only [Option.bind_some, hshort, Group.read_eq_read? hshort]
      cases short with
      | none => exact (hmap _ _ _).trans (hlong f.after)
      | some x => exact (hmap _ _ _).trans (hlong x.2)

theorem value_cases (today : Date) (s name : Text) :
    value today s name = [] ∨ ∃ r, reading? name s = some r ∧ value today s name = settle today r.entry.argument := by
  have hread := map_reading? name s
  unfold value
  split
  · rename_i v hv
    rw [hv] at hread
    obtain ⟨r, hr, rfl⟩ := Option.map_eq_some_iff.1 (show _ = some v from hread)
    exact .inr ⟨r, hr, rfl⟩
  · exact .inl rfl
  · exact .inl rfl

/-! ## Values -/

theorem word_letter_not_mem_long (d : Date) : 'W' ∉ d.long := by
  have hdigits (n : Nat) : 'W' ∉ Text.ofNat n := fun h => by
    have := Text.isDigit_of_mem_ofNat h
    cases this
  have hmonth : 'W' ∉ Date.monthNames[d.month - 1]?.getD [] := by
    cases h : Date.monthNames[d.month - 1]? with
    | none => exact List.not_mem_nil
    | some m => exact (by decide : ∀ m ∈ Date.monthNames, 'W' ∉ m) m (List.mem_of_getElem? h)
  simp [Date.long, hdigits, hmonth]

/-- Settling a value brings no tokens. -/
theorem holds_settle (today : Date) (h : Holds ts v) : Holds ts (settle today v) := by
  have hthanks : Struck v (withoutCommand "thanks" v) :=
    struck_removeAll (drops_command (.of_getLast? (by decide))) v
  have htoday (s : Text) : Struck s (s.replaceAll (Command.reader "today") fun _ => today.long) := by
    refine Struck.replaceAll (fun before s a rest hr => ?_) s
    obtain ⟨r, hr, he⟩ := Option.map_eq_some_iff.1 hr
    cases he
    exact ⟨"\\today", Command.after?_eq hr, ⟨⟨'\\', "today", rfl, by decide, .inl rfl⟩, word_letter_not_mem_long today⟩,
      .inr (.inl (.of_getLast? (by decide)))⟩
  have hand (s : Text) : Struck s (s.replaceAll separator fun _ => ", ") := by
    refine Struck.replaceAll (fun before s a rest hr => ?_) s
    obtain ⟨t, ht, he⟩ := Option.bind_eq_some_iff.1 hr
    cases he
    have hblank {s : Text} : ∀ c ∈ s.takeWhile isBlank, isBlank c = true := fun c hc => List.all_eq_true.1 List.all_takeWhile c hc
    have hs : s = s.takeWhile isBlank ++ "\\and".toList ++ t.takeWhile isBlank ++ t.dropWhile isBlank := by
      rw [List.append_assoc, List.takeWhile_append_dropWhile, List.append_assoc]
      conv => lhs; rw [← List.takeWhile_append_dropWhile (p := isBlank) (l := s), Command.after?_eq ht]
      rfl
    have hlast : Closes [] "\\and".toList := .of_getLast? (by decide)
    refine ⟨_, hs, ⟨?_, by decide⟩, .inr (.inl (Extract.Strip.closes_blanks ?_ hblank))⟩
    · cases hlead : s.takeWhile isBlank with
      | nil => exact ⟨'\\', _, rfl, by decide, .inl rfl⟩
      | cons c u =>
        exact ⟨c, _, rfl, Block.not_isTokenChar_of_isBlank (hblank c (by rw [hlead]; simp)), .inr ⟨',', " ", rfl, by decide, by decide⟩⟩
    · exact hlast.of_suffix (List.suffix_append _ _)
  obtain ⟨us, hus, hv⟩ := ((h.struck hthanks).struck (htoday _)).struck (hand _)
  exact ⟨us, hus, hv.collapse⟩

/-! ## Tokens of a reading -/

/-- The tokens around an entry and in its argument are, in this order, some of all. -/
theorem tokens_entry {e : Entry} {p q : Text} (hs : Bears ts (p ++ (e.source name ++ q))) :
    (Block.Token.all p ++ (Block.Token.all e.argument ++ Block.Token.all q)).Sublist ts ∧
      Bears (Block.Token.all p) (p ++ ['\\']) ∧ Bears (Block.Token.all e.argument) e.argument ∧ Bears (Block.Token.all q) q := by
  have hsplit : p ++ (e.source name ++ q) = p ++ '\\' :: (name ++ e.gap ++ e.shortForm ++ '{' :: (e.argument ++ '}' :: q)) := by
    simp [Entry.source, Entry.groups]
  rw [hsplit] at hs
  obtain ⟨us, vs, rfl, hbefore, hslash, hs⟩ := hs.split (by decide)
  obtain ⟨vs, ws, rfl, -, -, hs⟩ := hs.split (by decide)
  obtain ⟨as, ws, rfl, hargument, -, hafter⟩ := hs.split (by decide)
  rw [hbefore.all_eq, hargument.all_eq, hafter.all_eq]
  exact ⟨(List.Sublist.refl us).append (List.sublist_append_right vs _), hslash, hargument, hafter⟩

/-- Entries that stand one behind the other have no token in common. -/
theorem disjoint_behind {e e' : Entry} {p q w q' name' : Text} (hs : Bears ts (p ++ (e.source name ++ q))) (hts : ts.Nodup)
    (hq : q = w ++ (e'.source name' ++ q')) : List.Disjoint (Block.Token.all e.argument) (Block.Token.all e'.argument) := by
  obtain ⟨hsub, -, -, hafter⟩ := tokens_entry hs
  have hbehind : (Block.Token.all e'.argument).Sublist (Block.Token.all q) := by
    generalize Block.Token.all q = tq at hafter
    subst hq
    exact ((List.sublist_append_left _ _).trans (List.sublist_append_right _ _)).trans (tokens_entry hafter).1
  have hdisjoint := List.disjoint_of_nodup_append (List.nodup_append.1 (hts.sublist hsub)).2.1
  exact fun t ht ht' => hdisjoint ht (hbehind.subset ht')

/-! ## The body -/

/-- The metadata command stands in the preamble of a document. -/
def Reading.InPreamble (r : Reading) (s : Text) : Prop :=
  s.occurs (Marker.begins "document") = true ∧ r.before.occurs (Marker.begins "document") = false

/-- Neither another metadata command nor a marker of the document stands in the groups. Outside of the preamble only spaces and
    tabs stand in front of them, and where all preamble commands are taken out of the text, none stands in them. -/
structure Reading.Apart (r : Reading) (name s : Text) : Prop where
  metadata : ∀ m ∈ names, m = name ∨ r.entry.groups.occurs (Command.reader m) = false
  markers : r.entry.groups.occurs (Marker.begins "document") = false ∧ r.entry.groups.occurs (Marker.ends "document") = false
  body : r.InPreamble s ∨ r.entry.Tight ∧ (s.occurs (Marker.begins "document") = true ∨
    ∀ m ∈ commandNames, m = name ∨ r.entry.groups.occurs (Command.reader m) = false)

instance (r : Reading) (s : Text) : Decidable (r.InPreamble s) := inferInstanceAs (Decidable (_ ∧ _))

instance (r : Reading) (name s : Text) : Decidable (r.Apart name s) :=
  decidable_of_iff (_ ∧ _ ∧ _) ⟨fun ⟨h₁, h₂, h₃⟩ => ⟨h₁, h₂, h₃⟩, fun ⟨h₁, h₂, h₃⟩ => ⟨h₁, h₂, h₃⟩⟩

theorem letters_commandNames : ∀ m ∈ commandNames, Letters m ∧ Closes [] ('\\' :: m) := by
  intro m hm
  exact ⟨(by decide : ∀ m ∈ commandNames, Letters m) m hm, .of_getLast?
    ((by decide : ∀ m ∈ commandNames, (('\\' :: m).getLast?.any fun c => !isCapital c) = true) m hm)⟩

theorem letters_names : ∀ m ∈ names, Letters m ∧ Closes [] ('\\' :: m) :=
  fun m hm => letters_commandNames m ((by decide : names ⊆ commandNames) hm)

/-- The part of a text in front of an end marker of the document, or the whole text. -/
def UpToEnd (b v : Text) : Prop :=
  b = v ∨ ∃ gap v', (∀ c ∈ gap, isBlank c = true) ∧ v = b ++ (Marker.source "end" gap "document" ++ v')

theorem find?_marker (word : Text) {n : Text} (hword : '\\' ∉ word) (hn : '\\' ∉ n) {f : Text.Found Unit}
    (h : s.find? (Marker.reads word n) = some f) :
    ∃ gap, (∀ c ∈ gap, isBlank c = true) ∧ s = f.before ++ (Marker.source word gap n ++ f.after) := by
  have hslashed : Text.Slashed (Marker.reads word n) := Marker.slashed_reads hword hn
  obtain ⟨-, hs, hread⟩ := hslashed.find?_eq_some h
  obtain ⟨t, ht, he⟩ := Option.map_eq_some_iff.1 hread
  obtain rfl : t = f.after := congrArg Prod.snd he
  obtain ⟨gap, hgap, hsource⟩ := Marker.after?_eq_some_iff.1 ht
  exact ⟨gap, hgap, hsource ▸ hs⟩

/-- The body is what the preamble commands leave, or stands between two markers. -/
theorem body_cases (s : Text) :
    s.occurs (Marker.begins "document") = false ∧ body s = (removeAll commandNames s).removeAll (Marker.ends "document") ∨
      ∃ u gap v, (∀ c ∈ gap, isBlank c = true) ∧ s = u ++ (Marker.source "begin" gap "document" ++ v) ∧ UpToEnd (body s) v := by
  unfold body
  cases hf : s.find? (Marker.begins "document") with
  | none => exact .inl ⟨by rw [Text.occurs, hf, Option.isSome_none], rfl⟩
  | some f =>
    dsimp only
    obtain ⟨gap, hgap, hs⟩ := find?_marker "begin" (by decide) (by decide) hf
    refine .inr ⟨f.before, gap, f.after, hgap, hs, ?_⟩
    cases he : f.after.find? (Marker.ends "document") with
    | none => exact .inl rfl
    | some e =>
      obtain ⟨gap', hgap', hs'⟩ := find?_marker "end" (by decide) (by decide) he
      exact .inr ⟨gap', e.after, hgap', hs'⟩

theorem drops_ends (name : Text) : Drops (Marker.ends name) := by
  intro before u a rest h
  obtain ⟨t, ht, he⟩ := Option.map_eq_some_iff.1 h
  obtain ⟨-, rfl⟩ := Prod.mk.inj he
  obtain ⟨gap, -, hu⟩ := Marker.after?_eq_some_iff.1 ht
  exact ⟨_, hu, rfl, .inr (.inl (closes_marker "end" gap name))⟩

theorem occurs_marker {word gap n : Text} (hword : '\\' ∉ word) (hn : '\\' ∉ n) (hgap : ∀ c ∈ gap, isBlank c = true) (u v : Text) :
    (u ++ (Marker.source word gap n ++ v)).occurs (Marker.reads word n) = true := by
  have hslashed : Text.Slashed (Marker.reads word n) := Marker.slashed_reads hword hn
  refine Bool.of_not_eq_false fun hnone => ?_
  have hmisses := hslashed.forward.misses_of_find?_eq_none (hslashed.read_nil none) (by simpa [Text.occurs] using hnone)
  have hread := hmisses none _ (List.suffix_append u _)
  rw [Marker.reads, Marker.after?_source hgap] at hread
  cases hread

section Cut

variable {tp tq : List Text} {b : Text}

theorem Holds.upToEnd (h : Holds ts v) (hb : UpToEnd b v) : Holds ts b := by
  rcases hb with rfl | ⟨gap, v', -, rfl⟩
  · exact h
  · exact h.beside_marker.1

/-- In front of an end marker that is not in its groups, an entry stands whole or not at all. -/
theorem Around.upToEnd {e : Entry} (hclosed : e.Closed) (hname : name ∈ names) (hout : e.groups.occurs (Marker.ends "document") = false)
    (h : Around (e.source name) tp tq v) (hb : UpToEnd b v) : Around (e.source name) tp tq b ∨ Holds tp b := by
  rcases hb with rfl | ⟨gap, v', hgap, hv⟩
  · exact .inl h
  · obtain ⟨p, q, hsplit, hp, hq⟩ := h
    have hbeside := marker_beside hgap (by decide) (by decide) (by decide) hclosed (letters_names name hname).1
      ((by decide : ∀ m ∈ names, m ≠ "end".toList) name hname) hout (hsplit.symm.trans hv)
    rcases hbeside with ⟨w, hbefore, hafter⟩ | ⟨w, hbefore, -⟩
    · exact .inl ⟨p, w, hbefore, hp, (hafter ▸ hq).beside_marker.1⟩
    · rw [hbefore, List.append_assoc, List.append_assoc] at hp
      exact .inr hp.beside_marker.1

/-- Out of the body goes what is read as metadata. -/
theorem holds_body (hname : name ∈ names) (h : reading? name s = some r) (hapart : r.Apart name s) (hs : Bears ts s) :
    Holds (Block.Token.all r.before ++ Block.Token.all r.after) (removeAll names (body s)) := by
  obtain ⟨hsplit, hclosed⟩ := reading?_eq_some h
  obtain ⟨-, hslash, -, hafter⟩ := tokens_entry (hsplit ▸ hs)
  generalize Block.Token.all r.before = tp at hslash ⊢
  generalize Block.Token.all r.after = tq at hafter ⊢
  have hfront : Holds tp (r.before ++ ['\\']) := ⟨_, .refl _, hslash⟩
  have hback : Holds tq r.after := ⟨_, .refl _, hafter⟩
  have hletters := (letters_names name hname).1
  have hne : name ≠ [] := (by decide : ∀ m ∈ names, m ≠ []) name hname
  have hnaming := (by decide : ∀ m ∈ names, namingCommands.contains m = false) name hname
  have hends : ∀ m ∈ names, Closes [] ('\\' :: m) := fun m hm => (letters_names m hm).2
  rcases body_cases s with ⟨hnone, hbody⟩ | ⟨u, gap, v, hgap, hs, hbody⟩
  · obtain ⟨htight, hout⟩ : r.entry.Tight ∧ ∀ m ∈ commandNames, m = name ∨ r.entry.groups.occurs (Command.reader m) = false := by
      rcases hapart.body with ⟨hbegin, -⟩ | ⟨htight, hbegin | hout⟩
      · rw [hnone] at hbegin
        cases hbegin
      · rw [hnone] at hbegin
        cases hbegin
      · exact ⟨htight, hout⟩
    have hremoved : Holds (tp ++ tq) (removeAll commandNames s) := around_removeAll hclosed htight hletters hne hnaming
      letters_commandNames hout ((by decide : names ⊆ commandNames) hname) ⟨_, _, hsplit, hfront, hback⟩
    rw [hbody]
    exact Holds.removeAll hends (hremoved.struck (struck_removeAll (drops_ends _) _))
  · have hbeside := marker_beside hgap (by decide) (by decide) (by decide) hclosed hletters
      ((by decide : ∀ m ∈ names, m ≠ "begin".toList) name hname) hapart.markers.1 (hsplit.symm.trans hs)
    rcases hbeside with ⟨w, -, hv⟩ | ⟨w, hbefore, hv⟩
    · -- the command stands in the preamble
      have hv : Holds tq v := (hv ▸ hback).beside_marker.2
      exact (Holds.removeAll hends (hv.upToEnd hbody)).mono (List.sublist_append_right _ _)
    · have hoccurs : r.before.occurs (Marker.begins "document") = true :=
        hbefore ▸ occurs_marker (by decide) (by decide) hgap u w
      have htight : r.entry.Tight := by
        rcases hapart.body with ⟨-, hbegin⟩ | ⟨htight, -⟩
        · rw [hoccurs] at hbegin
          cases hbegin
        · exact htight
      have hw : Holds tp (w ++ ['\\']) := by
        rw [hbefore, List.append_assoc, List.append_assoc] at hfront
        exact hfront.beside_marker.2
      have haround : Around (r.entry.source name) tp tq v := ⟨w, r.after, hv, hw, hback⟩
      rcases haround.upToEnd hclosed hname hapart.markers.2 hbody with haround | hgone
      · exact around_removeAll hclosed htight hletters hne hnaming letters_names hapart.metadata hname haround
      · exact (Holds.removeAll hends hgone).mono (List.sublist_append_left _ _)

/-- The body has tokens of the text only. -/
theorem holds_body_all (hs : Bears ts s) : Holds ts (body s) := by
  have hall : Holds ts s := ⟨ts, .refl ts, hs⟩
  rcases body_cases s with ⟨-, hbody⟩ | ⟨u, gap, v, -, hsplit, hbody⟩
  · have hremoved := hall.removeAll fun m hm => (letters_commandNames m hm).2
    rw [hbody]
    exact hremoved.struck (struck_removeAll (drops_ends _) _)
  · have hv : Holds ts v := (hsplit ▸ hall).beside_marker.2
    exact hv.upToEnd hbody

end Cut

/-! ## The article -/

/-- Two metadata commands have no token in common. -/
theorem disjoint_readings {name' : Text} (hname : name ∈ names) (hname' : name' ∈ names) (hne : name ≠ name')
    (h : reading? name s = some r) (h' : reading? name' s = some r') (hapart : r.Apart name s) (hapart' : r'.Apart name' s)
    (hs : Bears ts s) (hts : ts.Nodup) : List.Disjoint (Block.Token.all r.entry.argument) (Block.Token.all r'.entry.argument) := by
  obtain ⟨hsplit, hclosed⟩ := reading?_eq_some h
  obtain ⟨hsplit', hclosed'⟩ := reading?_eq_some h'
  rcases entry_behind hclosed hclosed' (letters_names name hname).1 (letters_names name' hname').1 hne
    ((hapart.metadata name' hname').resolve_left hne.symm) ((hapart'.metadata name hname).resolve_left hne)
    (hsplit.symm.trans hsplit') with ⟨w, hw⟩ | ⟨w, hw⟩
  · exact disjoint_behind (hsplit ▸ hs) hts hw
  · exact (disjoint_behind (hsplit' ▸ hs) hts hw).symm

/-- A value has tokens of its argument only. -/
theorem tokens_value (today : Date) (name : Text) (hs : Bears ts s) :
    Bears (Block.Token.all (value today s name)) (value today s name) ∧ (value today s name = [] ∨
      ∃ r, reading? name s = some r ∧ (Block.Token.all (value today s name)).Sublist (Block.Token.all r.entry.argument)) := by
  rcases value_cases today s name with hv | ⟨r, hr, hv⟩
  · rw [hv]
    exact ⟨.nil, .inl rfl⟩
  · obtain ⟨-, -, hargument, -⟩ := tokens_entry ((reading?_eq_some hr).1 ▸ hs)
    obtain ⟨us, hus, hbears⟩ := holds_settle today ⟨_, .refl _, hargument⟩
    rw [← hv] at hbears
    have hall := hbears.all_eq
    exact ⟨hall ▸ hbears, .inr ⟨r, hr, hall ▸ hus⟩⟩

/-- What is put into the article as its body. -/
def shownBody (s : Text) : Text := Text.strip ((removeAll names (body s)).removeAll (Command.reader "maketitle"))

theorem drops_maketitle : Drops (Command.reader "maketitle") := by
  intro before s a rest h
  obtain ⟨t, ht, he⟩ := Option.map_eq_some_iff.1 h
  obtain ⟨-, rfl⟩ := Prod.mk.inj he
  exact ⟨"\\maketitle", Command.after?_eq ht, rfl, .inr (.inl (.of_getLast? (by decide)))⟩

theorem holds_shownBody (h : Holds ts (removeAll names (body s))) : Holds ts (shownBody s) := by
  obtain ⟨us, hus, hb⟩ := h.struck (struck_removeAll drops_maketitle _)
  exact ⟨us, hus, hb.strip⟩

/-- The article bears the tokens of its values and of its body. -/
theorem bears_markup (today : Date) {tv av dv bv : List Text} (ht : Bears tv (value today s "title"))
    (ha : Bears av (value today s "author")) (hd : Bears dv (value today s "date")) (hb : Bears bv (shownBody s)) :
    Bears (tv ++ (av ++ (dv ++ bv))) (rewrite today s).markup := by
  have hmarkup : (rewrite today s).markup = _ := fill_article (metadata today s) (shownBody s)
  have hbrace (u : Text) : Block.Mild ('\x7d' :: u) := (Block.mild_cons rfl).2 (by decide)
  have hbody : Bears bv (shownBody s ++ "\n\\end\x7bdocument\x7d") := by
    have hend := Bears.of_not_mem (a := "\n\\end\x7bdocument\x7d") (by decide) .nil
    have hmild : Block.Mild "\n\\end\x7bdocument\x7d" := (Block.mild_cons rfl).2 (by decide)
    rw [List.append_nil] at hend
    have := hb.append hend hmild
    rwa [List.append_nil] at this
  have htitled : 'W' ∉ if (metadata today s).isTitled then "\\maketitle\n".toList else [] := by
    split
    · decide
    · exact List.not_mem_nil
  rw [hmarkup]
  refine .of_not_mem (by decide) (ht.append (.of_not_mem (by decide) (ha.append (.of_not_mem (by decide) (hd.append
    (.of_not_mem (by decide) (.of_not_mem htitled hbody)) ?_)) ?_)) ?_)
  all_goals exact hbrace _

theorem nodup_entry (h : reading? name s = some r) (hs : Bears ts s) (hts : ts.Nodup) :
    (Block.Token.all r.before ++ (Block.Token.all r.entry.argument ++ Block.Token.all r.after)).Nodup :=
  hts.sublist (tokens_entry ((reading?_eq_some h).1 ▸ hs)).1

/-- What is read as metadata is not in the body. -/
theorem disjoint_body (hname : name ∈ names) (h : reading? name s = some r) (hapart : r.Apart name s) (hs : Bears ts s) (hts : ts.Nodup)
    {bv : List Text} (hb : Bears bv (shownBody s)) : List.Disjoint (Block.Token.all r.entry.argument) bv := by
  obtain ⟨us, hus, hbears⟩ := holds_shownBody (holds_body hname h hapart hs)
  obtain rfl : bv = us := hb.all_eq.symm.trans hbears.all_eq
  obtain ⟨-, hrest, hfront⟩ := List.nodup_append'.1 (nodup_entry h hs hts)
  intro t ht htb
  rcases List.mem_append.1 (hus.subset htb) with hbefore | hafter
  · exact hfront hbefore (List.mem_append_left _ ht)
  · exact List.disjoint_of_nodup_append hrest ht hafter

/-- Of a document in which each token stands once, and in which title, author and date are apart, the article has each token
    at most once. -/
theorem rewrite_tokens_nodup (today : Date) (s : Text) (hs : Bears (Block.Token.all s) s) (hts : (Block.Token.all s).Nodup)
    (hapart : ∀ name ∈ names, ∀ r ∈ reading? name s, r.Apart name s) : (Block.Token.all (rewrite today s).markup).Nodup := by
  have hvalue (name : Text) := tokens_value today name hs
  obtain ⟨bv, hbv, hb⟩ := holds_shownBody ((holds_body_all hs).removeAll fun m hm => (letters_names m hm).2)
  -- a token of a value is one of the argument that was read
  have hread {name t : Text} (ht : t ∈ Block.Token.all (value today s name)) :
      ∃ r, reading? name s = some r ∧ t ∈ Block.Token.all r.entry.argument := by
    rcases (hvalue name).2 with hv | ⟨r, hr, hsub⟩
    · rw [hv] at ht
      cases ht
    · exact ⟨r, hr, hsub.subset ht⟩
  have hnodup (name : Text) : (Block.Token.all (value today s name)).Nodup := by
    rcases (hvalue name).2 with hv | ⟨r, hr, hsub⟩
    · rw [hv]
      exact List.nodup_nil
    · exact (List.nodup_append.1 (List.nodup_append.1 (nodup_entry hr hs hts)).2.1).1.sublist hsub
  have hbody {name : Text} (hname : name ∈ names) : List.Disjoint (Block.Token.all (value today s name)) bv := by
    intro t ht htb
    obtain ⟨r, hr, ht⟩ := hread ht
    exact disjoint_body hname hr (hapart name hname r hr) hs hts hb ht htb
  have hother {name name' : Text} (hname : name ∈ names) (hname' : name' ∈ names) (hne : name ≠ name') :
      List.Disjoint (Block.Token.all (value today s name)) (Block.Token.all (value today s name')) := by
    intro t ht ht'
    obtain ⟨r, hr, ht⟩ := hread ht
    obtain ⟨r', hr', ht'⟩ := hread ht'
    exact disjoint_readings hname hname' hne hr hr' (hapart name hname r hr) (hapart name' hname' r' hr') hs hts ht ht'
  rw [(bears_markup today (hvalue _).1 (hvalue _).1 (hvalue _).1 hb).all_eq]
  refine List.nodup_append'.2 ⟨hnodup _, List.nodup_append'.2 ⟨hnodup _, List.nodup_append'.2 ⟨hnodup _, hts.sublist hbv,
    hbody (by decide)⟩, ?_⟩, ?_⟩
  · exact List.disjoint_append_right.2 ⟨hother (by decide) (by decide) (by decide), hbody (by decide)⟩
  · exact List.disjoint_append_right.2 ⟨hother (by decide) (by decide) (by decide),
      List.disjoint_append_right.2 ⟨hother (by decide) (by decide) (by decide), hbody (by decide)⟩⟩

/-- A document with its title in the preamble, and its author in the body behind a short form. -/
def titledDocument : Text :=
  "\\title\n\x7bOn " ++ (Block.Token.ofNumber .math 1 ++ ("\x7d\n\\begin\x7bdocument\x7d\n\\author [x] \x7b" ++
    (Block.Token.ofNumber .block 2 ++ ("\x7d\\maketitle\n" ++ (Block.Token.ofNumber .math 3 ++ "\n\\end\x7bdocument\x7d")))))

theorem rewrite_tokens_nodup_titled : Block.Token.all titledDocument =
    [Block.Token.ofNumber .math 1, Block.Token.ofNumber .block 2, Block.Token.ofNumber .math 3] ∧
      (Block.Token.all (rewrite ⟨2026, 1, 1⟩ titledDocument).markup).Nodup := by
  have hend : Bears [] "\n\\end\x7bdocument\x7d" := .of_not_mem (a := "\n\\end\x7bdocument\x7d") (by decide) .nil
  have hs : Bears [Block.Token.ofNumber .math 1, Block.Token.ofNumber .block 2, Block.Token.ofNumber .math 3] titledDocument :=
    .of_not_mem (by decide) (.token .math (by decide) (.of_not_mem (by decide) (.token .block (by decide)
      (.of_not_mem (by decide) (.token .math (by decide) hend)))))
  have hall := hs.all_eq
  exact ⟨hall, rewrite_tokens_nodup _ _ (hall ▸ hs) (by decide +kernel) (by decide +kernel)⟩

/-- A title on the line behind its command is read and left in the body. -/
theorem titleOnNextLine_twice : (Block.Token.all "\\title\n\x7bLATEXPREVIEWMATH000001\x7d").Nodup ∧
    ¬(Block.Token.all (rewrite ⟨2026, 1, 1⟩ "\\title\n\x7bLATEXPREVIEWMATH000001\x7d").markup).Nodup := by
  decide +kernel

end Article

end Galley
