import Galley.Proofs.WholeCommands
/-!
# Tokens around an entry

What the rewriting of an article does to the tokens of its body: as long as an entry stands in it, only tokens from in front of
the entry and behind it are left on its two sides (`Around`), and once it is taken out the text holds no others (`Holds`). A row
of commands with the entry's own among them takes it out (`around_removeAll`).
-/

namespace Galley.Article

open Block (Bears Struck Strikable Seam)
open Text (Letters)

variable {ts tp tq us : List Text} {t s p q u v u' v' x y : Text} {read : Reader Unit}

/-- Some of the tokens are in the text, and no others. -/
def Holds (ts : List Text) (s : Text) : Prop := ∃ us, us.Sublist ts ∧ Bears us s

/-- The text `t` with some tokens of `tp` in front of it and some of `tq` behind it. It begins with a backslash, so the part in
    front bears its tokens up to there. -/
def Around (t : Text) (tp tq : List Text) (s : Text) : Prop := ∃ p q, s = p ++ (t ++ q) ∧ Holds tp (p ++ ['\\']) ∧ Holds tq q

theorem Holds.mono (h : Holds ts s) (hsub : ts.Sublist us) : Holds us s := by
  obtain ⟨vs, hvs, hs⟩ := h
  exact ⟨vs, hvs.trans hsub, hs⟩

theorem Holds.join (hp : Holds tp (p ++ ['\\'])) (hq : Holds tq q) : Holds (tp ++ tq) (p ++ q) := by
  obtain ⟨us, hus, hp⟩ := hp
  obtain ⟨vs, hvs, hq⟩ := hq
  exact ⟨us ++ vs, hus.append hvs, hp.join hq⟩

theorem Holds.struck (h : Holds ts s) (hst : Struck s t) : Holds ts t := by
  obtain ⟨us, hus, hs⟩ := h
  obtain ⟨vs, hvs, ht⟩ := hst.bears hs
  exact ⟨vs, hvs.trans hus, ht⟩

theorem Holds.behind (h : Holds ts (y ++ q)) (hseam : Seam y q) : Holds ts q := by
  obtain ⟨us, hus, hs⟩ := h
  obtain ⟨vs, hvs, hq⟩ := hs.behind hseam
  exact ⟨vs, hvs.sublist.trans hus, hq⟩

/-- The part in front of a backslash, and with it. -/
theorem Holds.front (h : Holds ts (p ++ '\\' :: q)) : Holds ts p ∧ Holds ts (p ++ ['\\']) := by
  obtain ⟨us, hus, hs⟩ := h
  obtain ⟨vs, ws, rfl, hp, hp', -⟩ := hs.split (by decide)
  exact ⟨⟨vs, (List.sublist_append_left vs ws).trans hus, hp⟩, ⟨vs, (List.sublist_append_left vs ws).trans hus, hp'⟩⟩

theorem closes_marker (word gap n : Text) : Closes [] (Marker.source word gap n) :=
  ⟨'\\' :: (word ++ (gap ++ '{' :: n)), '}', by simp [Marker.source], rfl⟩

/-- Behind a marker, and in front of it. -/
theorem Holds.beside_marker {word gap n : Text} (h : Holds ts (u ++ (Marker.source word gap n ++ v))) : Holds ts u ∧ Holds ts v := by
  refine ⟨h.front.1, ?_⟩
  rw [← List.append_assoc] at h
  exact h.behind (.inr (.inl ((closes_marker word gap n).of_suffix (List.suffix_append u _))))

/-! ## Taking out -/

theorem struck_removeAll (hdrops : Drops read) (s : Text) : Struck s (s.removeAll read) := by
  refine Struck.replaceAll (fun before s a rest h => ?_) s
  obtain ⟨x, hs, hslash, hseam⟩ := hdrops before s a rest h
  exact ⟨x, hs, strikable_command hslash, hseam⟩

/-- Taking out other constructs leaves the entry or takes it along. -/
theorem Around.removeAll (h : Around t tp tq s) (ht : t.head? = some '\\') (hread : Spared t read) :
    Around t tp tq (s.removeAll read) ∧ (∃ q, read none (t ++ q) = none) ∨ Holds (tp ++ tq) (s.removeAll read) := by
  obtain ⟨p, q, rfl, hp, hq⟩ := h
  have hstruck (q : Text) := struck_removeAll hread.drops q
  rcases removeAll_around ht hread p q with ⟨p', hstay, hnone, he⟩ | ⟨p₀, p₁, p', y, q₂, rfl, hslash, rfl, hseam, hstay, he⟩
  · rw [he]
    exact .inl ⟨⟨p', _, rfl, hp.struck (hstay.concat (by decide)), hq.struck (hstruck q)⟩, q, hnone⟩
  · rw [he]
    have hp₀ : Holds tp (p₀ ++ ['\\']) := by
      cases p₁ with
      | nil => rwa [List.append_nil] at hp
      | cons c p₁ =>
        obtain rfl : c = '\\' := by simpa using hslash
        rw [List.append_assoc] at hp
        exact hp.front.2
    exact .inr ((hp₀.struck (hstay.concat (by decide))).join ((hq.behind hseam).struck (hstruck q₂)))

theorem Holds.removeAll {ms : List Text} (hms : ∀ m ∈ ms, Closes [] ('\\' :: m)) (h : Holds ts s) :
    Holds ts (Article.removeAll ms s) := by
  induction ms generalizing s with
  | nil => exact h
  | cons m ms ih =>
    obtain ⟨hm, hms⟩ := List.forall_mem_cons.1 hms
    exact ih hms (h.struck (struck_removeAll (drops_command hm) s))

/-- An entry among commands that are taken out one name after another, up to its own. -/
theorem around_removeAll {e : Entry} {name : Text} (hclosed : e.Closed) (htight : e.Tight) (hname : Letters name) (hne : name ≠ [])
    (hnaming : namingCommands.contains name = false) {ms : List Text} (hms : ∀ m ∈ ms, Letters m ∧ Closes [] ('\\' :: m))
    (hout : ∀ m ∈ ms, m = name ∨ e.groups.occurs (Command.reader m) = false) (hmem : name ∈ ms)
    (h : Around (e.source name) tp tq s) : Holds (tp ++ tq) (removeAll ms s) := by
  induction ms generalizing s with
  | nil => cases hmem
  | cons m ms ih =>
    obtain ⟨⟨hm, hlast⟩, hms⟩ := List.forall_mem_cons.1 hms
    obtain ⟨hm', hout⟩ := List.forall_mem_cons.1 hout
    rcases h.removeAll rfl (spared_command hclosed htight hname hne hnaming hm hlast hm') with ⟨h, q, hq⟩ | h
    · rcases List.mem_cons.1 hmem with rfl | hmem
      · obtain ⟨r, hr⟩ := command_source hclosed name q
        rw [hr] at hq
        cases hq
      · exact ih hms hout hmem h
    · have hrest : Holds (tp ++ tq) (Article.removeAll ms (s.removeAll (command m))) := h.removeAll fun m hm => (hms m hm).2
      exact hrest

/-! ## Places -/

/-- Two parts of a text stand one behind the other, unless one of them begins in the other. -/
theorem one_behind (h : u ++ (x ++ v) = u' ++ (y ++ v')) (hx : x ≠ [])
    (hxy : ∀ a b, x = a ++ b → b ≠ [] → b ++ v ≠ y ++ v') (hyx : ∀ a b, y = a ++ b → a ≠ [] → b ≠ [] → b ++ v' ≠ x ++ v) :
    (∃ w, u' = u ++ (x ++ w) ∧ v = w ++ (y ++ v')) ∨ ∃ w, u = u' ++ (y ++ w) ∧ v' = w ++ (x ++ v) := by
  rcases List.append_eq_append_iff.1 h with ⟨z, rfl, hz⟩ | ⟨z, rfl, hz⟩
  · rcases List.append_eq_append_iff.1 hz with ⟨w, rfl, rfl⟩ | ⟨b, rfl, hb⟩
    · exact .inl ⟨w, rfl, rfl⟩
    · cases b with
      | nil => exact .inl ⟨[], by simp, by simpa using hb.symm⟩
      | cons c b => exact absurd hb.symm (hxy z (c :: b) rfl (by simp))
  · rcases List.append_eq_append_iff.1 hz with ⟨w, rfl, rfl⟩ | ⟨b, rfl, hb⟩
    · exact .inr ⟨w, rfl, rfl⟩
    · cases b with
      | nil => exact .inr ⟨[], by simp, by simpa using hb.symm⟩
      | cons c b =>
        cases z with
        | nil => exact absurd hb (hxy [] x rfl hx)
        | cons d z => exact absurd hb.symm (hyx (d :: z) (c :: b) rfl (by simp) (by simp))

section Places

variable {e e' : Entry} {name name' : Text}

theorem not_letter_of_isBlank {c : Char} (h : isBlank c = true) : isAsciiLetter c = false := by
  refine Bool.eq_false_iff.2 fun hc => ?_
  simp only [isAsciiLetter, Bool.or_eq_true, Bool.and_eq_true, decide_eq_true_eq] at hc
  simp only [isBlank, inRanges, blankRanges, List.any_cons, List.any_nil, Bool.or_eq_true, Bool.and_eq_true,
    decide_eq_true_eq, Bool.or_false] at h
  rcases hc with ⟨hlow, hhigh⟩ | ⟨hlow, hhigh⟩
  · have hlow : 97 ≤ c.toNat := hlow
    have hhigh : c.toNat ≤ 122 := hhigh
    omega
  · have hlow : 65 ≤ c.toNat := hlow
    have hhigh : c.toNat ≤ 90 := hhigh
    omega

/-- The word of a marker is its word. -/
theorem word_marker {word gap : Text} (hword : Letters word) (hgap : ∀ c ∈ gap, isBlank c = true) (v : Text) :
    Text.word (word ++ (gap ++ '{' :: v)) = word := by
  have hnil : Text.word (gap ++ '{' :: v) = [] := by
    cases gap with
    | nil => exact Text.word_cons_of_not_letter (by decide) v
    | cons c gap => exact Text.word_cons_of_not_letter (not_letter_of_isBlank (hgap c (by simp))) _
  rw [Text.word_append_of_letters hword, hnil, List.append_nil]

/-- Of two entries, neither with the other's command in its groups, one stands behind the other. -/
theorem entry_behind (hclosed : e.Closed) (hclosed' : e'.Closed) (hname : Letters name) (hname' : Letters name') (hne : name ≠ name')
    (hout : e.groups.occurs (Command.reader name') = false) (hout' : e'.groups.occurs (Command.reader name) = false)
    (h : u ++ (e.source name ++ v) = u' ++ (e'.source name' ++ v')) :
    (∃ w, v = w ++ (e'.source name' ++ v')) ∨ ∃ w, v' = w ++ (e.source name ++ v) := by
  have hread {e : Entry} {n : Text} (hclosed : e.Closed) (v : Text) : Command.after? n (e.source n ++ v) ≠ none := by
    intro hn
    obtain ⟨r, hr⟩ := command_source hclosed n v
    obtain ⟨s, hs, -⟩ := Option.map_eq_some_iff.1 hr
    obtain ⟨r₀, hr₀, -⟩ := starred?_cases hs
    rw [hn] at hr₀
    cases hr₀
  refine (one_behind h (by simp [Entry.source]) (fun a b hab hb heq => ?_) fun a b hab ha hb heq => ?_).imp
    (fun ⟨w, _, hw⟩ => ⟨w, hw⟩) fun ⟨w, _, hw⟩ => ⟨w, hw⟩
  · cases a with
    | nil =>
      -- the names differ
      obtain rfl : e.source name = b := hab
      have htail : name ++ (e.groups ++ v) = name' ++ (e'.groups ++ v') := by simpa [Entry.source] using heq
      exact absurd (by rw [← (word_source hclosed hname v).1, htail, (word_source hclosed' hname' _).1]) hne
    | cons c a => exact hread hclosed' v' (heq ▸ after?_inside hname hname' hout hab (by simp) hb)
  · exact hread hclosed v (heq ▸ after?_inside hname' hname hout' hab ha hb)

/-- A marker that does not stand in the groups of an entry does not begin in the entry. -/
theorem marker_outside {word gap n a b : Text} (hgap : ∀ c ∈ gap, isBlank c = true) (hword : Letters word) (hn : '\\' ∉ n) (hn' : '}' ∉ n)
    (hname : Letters name) (hout : e.groups.occurs (Marker.reads word n) = false) (hab : e.source name = a ++ b) (ha : a ≠ [])
    (hb : b ≠ []) : b ++ v ≠ Marker.source word gap n ++ v' := by
  intro heq
  have hslashed : Text.Slashed (Marker.reads word n) :=
    Marker.slashed_reads (fun h => absurd (hword _ h) (by decide)) hn
  have hmisses : Text.Misses (Marker.reads word n) e.groups :=
    Text.Forward.misses_of_find?_eq_none hslashed.forward (hslashed.read_nil none) (by simpa [Text.occurs] using hout)
  obtain ⟨d, b, rfl⟩ := List.exists_cons_of_ne_nil hb
  obtain rfl : d = '\\' := (List.cons.inj (show d :: (b ++ v) = '\\' :: _ from heq)).1
  obtain ⟨hsuffix, z, rfl⟩ := suffix_groups hname hab ha
  have hreads (w : Text) (hw : z ++ ['}'] = word ++ (gap ++ '{' :: (n ++ ['}'])) ++ w) : False := by
    have hnone := hmisses none _ hsuffix
    have hmarker : '\\' :: (z ++ ['}']) = Marker.source word gap n ++ w := congrArg ('\\' :: ·) hw
    rw [hmarker, Marker.reads, Marker.after?_source hgap] at hnone
    cases hnone
  have htail : z ++ ['}'] ++ v = word ++ (gap ++ '{' :: (n ++ ['}'])) ++ v' := (List.cons.inj heq).2
  rcases List.append_eq_append_iff.1 htail with ⟨w, hw, -⟩ | ⟨w, hw, -⟩
  · -- the only closing brace of a marker is its last character
    rcases List.eq_nil_or_concat w with rfl | ⟨w, c, rfl⟩
    · exact hreads [] (by rw [List.append_nil] at hw ⊢; exact hw.symm)
    · have hmark : word ++ (gap ++ '{' :: n) ++ ['}'] = z ++ '}' :: w ++ [c] := by simpa using hw
      have hmem : '}' ∈ word ++ (gap ++ '{' :: n) := by
        rw [(List.append_inj' hmark rfl).1]
        simp
      simp only [List.mem_append, List.mem_cons, hn', or_false] at hmem
      rcases hmem with h | h | h
      · exact absurd (hword _ h) (by decide)
      · exact absurd (hgap _ h) (by decide)
      · cases h
  · exact hreads w hw

/-- Such a marker stands in front of the entry or behind it. -/
theorem marker_beside {word gap n : Text} (hgap : ∀ c ∈ gap, isBlank c = true) (hword : Letters word) (hn : '\\' ∉ n) (hn' : '}' ∉ n)
    (hclosed : e.Closed) (hname : Letters name) (hne : name ≠ word)
    (hout : e.groups.occurs (Marker.reads word n) = false) (h : u ++ (e.source name ++ v) = u' ++ (Marker.source word gap n ++ v')) :
    (∃ w, u' = u ++ (e.source name ++ w) ∧ v = w ++ (Marker.source word gap n ++ v')) ∨
      ∃ w, u = u' ++ (Marker.source word gap n ++ w) ∧ v' = w ++ (e.source name ++ v) := by
  refine one_behind h (by simp [Entry.source]) (fun a b hab hb heq => ?_) fun a b hab ha hb heq => ?_
  · cases a with
    | nil =>
      -- the words differ
      obtain rfl : e.source name = b := hab
      have htail : name ++ (e.groups ++ v) = word ++ (gap ++ '{' :: (n ++ '}' :: v')) := by
        simpa [Entry.source, Marker.source] using heq
      exact absurd (by rw [← (word_source hclosed hname v).1, htail, word_marker hword hgap]) hne
    | cons c a => exact marker_outside hgap hword hn hn' hname hout hab (by simp) hb heq
  · -- a marker has one backslash only
    have hslash : '\\' ∉ word ++ (gap ++ '{' :: (n ++ ['}'])) :=
      Marker.slash_not_mem (fun h => absurd (hword _ h) (by decide)) hgap hn
    obtain ⟨d, b, rfl⟩ := List.exists_cons_of_ne_nil hb
    obtain ⟨c, a, rfl⟩ := List.exists_cons_of_ne_nil ha
    obtain rfl : d = '\\' := (List.cons.inj (show d :: (b ++ v') = '\\' :: (name ++ e.groups ++ v) from heq)).1
    rw [(List.cons.inj hab).2] at hslash
    simp at hslash

end Places

end Galley.Article
