import Galley.Proofs.Finding
import Galley.Proofs.TokenSeams
/-!
# Environments end where their markers even out

Read from left to right, the markers of a name step up and down (`Marker.level`). The markers that close an environment are
searched with a count of the open ones, and this count is the level: as long as nothing is found, no beginning of the text
has more end markers than begin markers (`Environment.close_spec`). So an environment begins at the first begin marker of
its name and ends at the first end marker up to which there are as many of the one as of the other
(`Environment.find_evens_out`).
-/

namespace Galley

/-- The part of a text between two places. -/
def Text.between (s : Text) (p q : Nat) : Text := (s.take q).drop p

namespace Text

theorem between_append (x m y : Text) : (x ++ (m ++ y)).between x.length (x ++ m).length = m := by
  rw [between, ← List.append_assoc, List.take_left, List.drop_left]

theorem between_drop (s : Text) (k p q : Nat) : between (s.drop k) p q = s.between (k + p) (k + q) := by
  rw [between, between, List.take_drop, List.drop_drop]

theorem between_split {s : Text} {p q : Nat} (hq : q ≤ s.length) (hpq : p ≤ q) :
    s = s.take p ++ (s.between p q ++ s.drop q) ∧ (s.take p).length = p ∧ (s.take p ++ s.between p q).length = q := by
  have htake : s.take p ++ s.between p q = s.take q := by
    have hsplit := List.take_append_drop p (s.take q)
    rwa [List.take_take, Nat.min_eq_left hpq] at hsplit
  refine ⟨?_, ?_, ?_⟩
  · rw [← List.append_assoc, htake, List.take_append_drop]
  · rw [List.length_take]
    omega
  · rw [htake, List.length_take]
    omega

namespace Slashed

variable {α : Type} {read : Reader α} (h : Slashed read)

include h

/-- What is not read at the head of a text is not read in a beginning of it. -/
theorem read_eq_none_of_append {s u : Text} (hr : read none (s ++ u) = none) : read none s = none := by
  cases hs : read none s with
  | none => rfl
  | some r =>
    rw [h.read_extend hs u] at hr
    cases hr

/-- Nothing is read in a construct that is not whole. -/
theorem readAll_of_short {m t rest : Text} {a : α} (hr : read none (m ++ rest) = some (a, rest)) (ht : t <+: m) (hne : t ≠ m) :
    readAll read t = [] := by
  obtain ⟨x, hx, hs, -⟩ := h hr
  obtain rfl : m = '\\' :: x := List.append_cancel_right hs
  cases t with
  | nil => rfl
  | cons c t =>
    obtain ⟨rfl, z, rfl⟩ := List.cons_prefix_cons.1 ht
    have hz : z ≠ [] := fun hz => hne (by rw [hz, List.append_nil])
    have hnone : read none ('\\' :: t) = none := by
      cases hread : read none ('\\' :: t) with
      | none => rfl
      | some r =>
        have hlong := h.read_extend hread (z ++ rest)
        rw [← List.append_assoc, List.cons_append, hr] at hlong
        have hlen := congrArg List.length (Prod.mk.inj (Option.some.inj hlong)).2
        rw [List.length_append, List.length_append] at hlen
        have := List.length_pos_iff.2 hz
        omega
    rw [h.forward.readAll_cons hnone, (h.misses fun hm => hx (List.mem_append_left z hm)).readAll_eq]

/-- A construct that another reader reads counts nothing. -/
theorem tally_skip {x u : Text} (hx : '\\' ∉ x) (hr : read none ('\\' :: (x ++ u)) = none) :
    tally read ('\\' :: (x ++ u)) = tally read u := by
  rw [tally, h.forward.readAll_cons hr, h.readAll_append_of_not_mem hx]
  rfl

end Slashed

end Text

namespace Marker

open Text (Slashed readAll tally)

variable {word name s m u : Text}

/-! ## Markers and the places where they stand -/

def IsMarker (word name m : Text) : Prop := ∃ gap, (∀ c ∈ gap, isBlank c = true) ∧ m = source word gap name

/-- A marker stands from a place of a text to another. -/
def At (word name s : Text) (p q : Nat) : Prop := q ≤ s.length ∧ IsMarker word name (s.between p q)

theorem after?_eq_some_iff_isMarker {rest : Text} :
    after? word name s = some rest ↔ ∃ m, IsMarker word name m ∧ s = m ++ rest := by
  rw [after?_eq_some_iff]
  constructor
  · rintro ⟨gap, hgap, rfl⟩
    exact ⟨_, ⟨gap, hgap, rfl⟩, rfl⟩
  · rintro ⟨m, ⟨gap, hgap, rfl⟩, rfl⟩
    exact ⟨gap, hgap, rfl⟩

theorem IsMarker.slash (hword : '\\' ∉ word) (hname : '\\' ∉ name) (h : IsMarker word name m) :
    ∃ x, m = '\\' :: x ∧ '\\' ∉ x := by
  obtain ⟨gap, hgap, rfl⟩ := h
  exact ⟨_, rfl, slash_not_mem hword hgap hname⟩

theorem at_iff {p q : Nat} : At word name s p q ↔
    ∃ x m y, s = x ++ (m ++ y) ∧ IsMarker word name m ∧ x.length = p ∧ (x ++ m).length = q := by
  constructor
  · rintro ⟨hq, hm⟩
    have hpq : p ≤ q := by
      obtain ⟨gap, -, hsource⟩ := hm
      have hlen := congrArg List.length hsource
      rw [Text.between, List.length_drop, List.length_take, source, List.length_cons] at hlen
      omega
    obtain ⟨hs, hp, hlen⟩ := Text.between_split hq hpq
    exact ⟨_, _, _, hs, hm, hp, hlen⟩
  · rintro ⟨x, m, y, rfl, hm, rfl, rfl⟩
    refine ⟨by simp, ?_⟩
    rwa [Text.between_append]

theorem At.le {p q : Nat} (h : At word name s p q) : p ≤ q := by
  obtain ⟨x, m, y, -, -, rfl, rfl⟩ := at_iff.1 h
  rw [List.length_append]
  exact Nat.le_add_right _ _

theorem at_drop {k p q : Nat} : At word name (s.drop k) p q ↔ At word name s (k + p) (k + q) := by
  have hq (hm : IsMarker word name (s.between (k + p) (k + q))) : q ≠ 0 := by
    rintro rfl
    obtain ⟨gap, -, hsource⟩ := hm
    rw [Text.between, List.drop_eq_nil_of_le (by rw [List.length_take]; omega)] at hsource
    cases hsource
  rw [At, At, Text.between_drop, List.length_drop]
  refine and_congr_left fun hm => ?_
  have := hq hm
  omega

/-- At one place there is one marker. -/
theorem At.unique {p q q' : Nat} (h : At word name s p q) (h' : At word name s p q') : q = q' := by
  have hafter {q : Nat} (h : At word name s p q) : after? word name (s.drop p) = some (s.drop q) := by
    obtain ⟨x, m, y, rfl, hm, rfl, rfl⟩ := at_iff.1 h
    rw [List.drop_left, ← List.append_assoc, List.drop_left]
    exact after?_eq_some_iff_isMarker.2 ⟨m, hm, rfl⟩
  have hdrop := hafter h
  rw [hafter h'] at hdrop
  have hlen := congrArg List.length (Option.some.inj hdrop)
  rw [List.length_drop, List.length_drop] at hlen
  have := h.1
  have := h'.1
  omega

/-- Markers do not overlap. -/
theorem IsMarker.apart {m' a x y : Text} (hword : '\\' ∉ word) (hname : '\\' ∉ name) (h : IsMarker word name m)
    (h' : ∃ z, m' = '\\' :: z) (hs : m ++ a = x ++ (m' ++ y)) : x = [] ∨ ∃ x', x = m ++ x' ∧ a = x' ++ (m' ++ y) := by
  obtain ⟨z, rfl, hz⟩ := h.slash hword hname
  obtain ⟨z', rfl⟩ := h'
  rcases List.append_eq_append_iff.1 hs with ⟨x', hx, ha⟩ | ⟨w, hm, hw⟩
  · exact .inr ⟨x', hx, ha⟩
  · cases x with
    | nil => exact .inl rfl
    | cons c x =>
      obtain ⟨-, rfl⟩ := List.cons.inj hm
      cases w with
      | nil => exact .inr ⟨[], by rw [hm]; simp, hw.symm⟩
      | cons e w =>
        obtain ⟨rfl, -⟩ := List.cons.inj hw
        simp at hz

/-! ## The level of a text -/

/-- How many more begin markers than end markers stand in a text. -/
def level (name s : Text) : Int := ((readAll (either name) s).count true : Int) - (readAll (either name) s).count false

theorem slashed_ends (hname : '\\' ∉ name) : Slashed (ends name) := @slashed_reads name "end" (by decide) hname

theorem either_eq_none_iff {b : Option Char} : either name b s = none ↔ begins name b s = none ∧ ends name b s = none := by
  rw [either, begins, ends]
  cases after? "begin" name s <;> simp

section Level

variable (hname : '\\' ∉ name)

include hname

theorem level_char {c : Char} (hr : either name none (c :: s) = none) : level name (c :: s) = level name s := by
  have heither : Slashed (either name) := slashed_either hname
  rw [level, heither.forward.readAll_cons hr]
  rfl

theorem level_begin (hm : IsMarker "begin" name m) (s : Text) : level name (m ++ s) = level name s + 1 := by
  have heither : Slashed (either name) := slashed_either hname
  obtain ⟨gap, hgap, rfl⟩ := hm
  have hread : readAll (either name) (source "begin" gap name ++ s) = true :: readAll (either name) s :=
    Text.Firm.readAll_hit heither.firm (either_begin hgap none s)
  rw [level, level, hread, List.count_cons_self, List.count_cons_of_ne (by decide)]
  omega

theorem level_end (hm : IsMarker "end" name m) (s : Text) : level name (m ++ s) = level name s - 1 := by
  have heither : Slashed (either name) := slashed_either hname
  obtain ⟨gap, hgap, rfl⟩ := hm
  have hread : readAll (either name) (source "end" gap name ++ s) = false :: readAll (either name) s :=
    Text.Firm.readAll_hit heither.firm (either_end hgap none s)
  rw [level, level, hread, List.count_cons_self, List.count_cons_of_ne (by decide)]
  omega

theorem level_append_slash (s u : Text) : level name (s ++ '\\' :: u) = level name s + level name ('\\' :: u) := by
  have heither : Slashed (either name) := slashed_either hname
  rw [level, level, level, heither.readAll_append_slash, List.count_append, List.count_append]
  omega

/-- A marker that is not whole counts nothing. -/
theorem level_short {sense : Bool} {t rest : Text} (hr : either name none (m ++ rest) = some (sense, rest)) (ht : t <+: m)
    (hne : t ≠ m) : level name t = 0 := by
  have heither : Slashed (either name) := slashed_either hname
  rw [level, heither.readAll_of_short hr ht hne]
  rfl

theorem level_eq (s : Text) : level name s = (tally (begins name) s : Int) - tally (ends name) s := by
  have heither : Slashed (either name) := slashed_either hname
  have hbegins : Slashed (begins name) := slashed_begins hname
  have hends : Slashed (ends name) := slashed_ends hname
  induction s using Text.Firm.induct heither.firm with
  | nil => rfl
  | char c s hr ih =>
    obtain ⟨hb, he⟩ := either_eq_none_iff.1 hr
    rw [level_char hname hr, ih, tally, tally, tally, tally, hbegins.forward.readAll_cons hb, hends.forward.readAll_cons he]
  | hit s sense rest hr ih =>
    obtain ⟨gap, hgap, rfl⟩ := either_eq_some hr
    cases sense with
    | true =>
      have hread : begins name none (source "begin" gap name ++ rest) = some ((), rest) := by
        rw [begins, after?_source hgap, Option.map_some]
      have hskip : tally (ends name) (source "begin" gap name ++ rest) = tally (ends name) rest :=
        hends.tally_skip (slash_not_mem (by decide) hgap hname) rfl
      refine (level_begin hname ⟨gap, hgap, rfl⟩ rest).trans ?_
      simp only [if_true]
      rw [ih, hbegins.tally_hit hread, hskip]
      omega
    | false =>
      have hread : ends name none (source "end" gap name ++ rest) = some ((), rest) := by
        rw [ends, after?_source hgap, Option.map_some]
      have hskip : tally (begins name) (source "end" gap name ++ rest) = tally (begins name) rest :=
        hbegins.tally_skip (slash_not_mem (by decide) hgap hname) rfl
      refine (level_end hname ⟨gap, hgap, rfl⟩ rest).trans ?_
      simp only [Bool.false_eq_true, if_false]
      rw [ih, hends.tally_hit hread, hskip]
      omega

end Level

end Marker

namespace Environment

open Marker (IsMarker At begins ends either level)
open Text (Slashed cut tally)

variable {name : Text}

/-! ## The search for the matching end marker -/

/-- With `d` environments open, no beginning of the text closes more than are open. -/
def StaysOpen (name : Text) (d : Nat) (s : Text) : Prop := ∀ t, t <+: s → 0 ≤ d + level name t

namespace StaysOpen

variable {d : Nat} {m s : Text}

theorem nil : StaysOpen name d [] := by
  intro t ht
  rw [List.prefix_nil.1 ht]
  exact Int.natCast_nonneg d

variable (hname : '\\' ∉ name)

include hname

theorem char {c : Char} (hr : either name none (c :: s) = none) (h : StaysOpen name d s) : StaysOpen name d (c :: s) := by
  have heither : Slashed (either name) := Marker.slashed_either hname
  intro t ht
  cases t with
  | nil => exact nil [] List.nil_prefix
  | cons e t =>
    obtain ⟨rfl, u, rfl⟩ := List.cons_prefix_cons.1 ht
    rw [Marker.level_char hname (heither.read_eq_none_of_append (u := u) hr)]
    exact h t (List.prefix_append t u)

/-- In front of a marker that changes the number of open environments. -/
theorem marker {e : Nat} {sense : Bool} {rest : Text} (hr : either name none (m ++ rest) = some (sense, rest))
    (hlevel : ∀ t, (d : Int) + level name (m ++ t) = e + level name t) (h : StaysOpen name e s) : StaysOpen name d (m ++ s) := by
  intro t ht
  by_cases hm : m <+: t
  · obtain ⟨t, rfl⟩ := hm
    rw [hlevel]
    exact h t (List.prefix_append_right_inj m |>.1 ht)
  · have hshort : t <+: m := by
      rcases List.prefix_or_prefix_of_prefix ht (List.prefix_append m s) with h | h
      · exact h
      · exact absurd h hm
    have hne : t ≠ m := fun he => hm (he ▸ List.prefix_refl t)
    rw [Marker.level_short hname hr hshort hne]
    omega

end StaysOpen

/-- The search stops at the first end marker that closes more environments than are open. -/
theorem close_spec (hname : '\\' ∉ name) (s : Text) : ∀ d : Nat,
    (∀ body closing rest, close d (cut (either name) s) = some (body, closing, rest) →
      IsMarker "end" name closing ∧ d + level name body = 0 ∧ StaysOpen name d body) ∧
    (close d (cut (either name) s) = none → StaysOpen name d s) := by
  have heither : Slashed (either name) := Marker.slashed_either hname
  induction s using Text.Firm.induct heither.firm with
  | nil =>
    intro d
    refine ⟨?_, fun _ => .nil⟩
    intro body closing rest h
    cases h
  | char c s hr ih =>
    intro d
    obtain ⟨hsome, hnone⟩ := ih d
    rw [heither.forward.cut_cons hr]
    refine ⟨?_, fun h => (hnone (Option.map_eq_none_iff.1 h)).char hname hr⟩
    intro body closing rest h
    obtain ⟨⟨b, r⟩, hb, he⟩ := Option.map_eq_some_iff.1 h
    obtain ⟨rfl, rfl⟩ := Prod.mk.inj he
    obtain ⟨hclosing, hlevel, hopen⟩ := hsome b closing rest hb
    have hsplit := close_eq hb
    rw [Text.sources_cut, List.append_assoc] at hsplit
    have hread : either name none (c :: b) = none := by
      rw [hsplit] at hr
      exact heither.read_eq_none_of_append (s := c :: b) hr
    refine ⟨hclosing, ?_, hopen.char hname hread⟩
    rwa [Marker.level_char hname hread]
  | hit s sense rest hr ih =>
    obtain ⟨x, -, rfl, hx⟩ := heither hr
    have hcut := heither.forward.cut_hit hr rfl
    have hmarker := hx none
    -- a marker in the body moves the search to another number of open environments
    have passed {d e : Nat} (hlevel : ∀ t, (d : Int) + level name ('\\' :: x ++ t) = e + level name t) :
        (∀ body closing u, (close e (cut (either name) rest)).map (fun p => ('\\' :: x ++ p.1, p.2)) = some (body, closing, u) →
          IsMarker "end" name closing ∧ d + level name body = 0 ∧ StaysOpen name d body) ∧
        ((close e (cut (either name) rest)).map (fun p => ('\\' :: x ++ p.1, p.2)) = none →
          StaysOpen name d ('\\' :: (x ++ rest))) := by
      obtain ⟨hsome, hnone⟩ := ih e
      refine ⟨?_, fun h => (hnone (Option.map_eq_none_iff.1 h)).marker hname hr hlevel⟩
      intro body closing u h
      obtain ⟨⟨b, r⟩, hb, he⟩ := Option.map_eq_some_iff.1 h
      obtain ⟨rfl, rfl⟩ := Prod.mk.inj he
      obtain ⟨hclosing, hzero, hopen⟩ := hsome b closing u hb
      refine ⟨hclosing, ?_, hopen.marker hname (hmarker rest) hlevel⟩
      rw [hlevel, hzero]
    intro d
    rw [hcut]
    obtain ⟨gap, hgap, hsource⟩ := Marker.either_eq_some hr
    have hm : '\\' :: x = Marker.source (if sense then "begin" else "end") gap name := List.append_cancel_right hsource
    cases sense with
    | true =>
      exact passed fun t => by
        rw [Marker.level_begin hname ⟨gap, hgap, hm⟩ t]
        omega
    | false =>
      cases d with
      | succ d =>
        exact passed fun t => by
          rw [Marker.level_end hname ⟨gap, hgap, hm⟩ t]
          omega
      | zero =>
        refine ⟨?_, fun h => by cases h⟩
        intro body closing u h
        cases h
        exact ⟨⟨gap, hgap, hm⟩, rfl, .nil⟩

/-- The body of the environment that is found is balanced. -/
theorem even_body (hname : '\\' ∉ name) {s body closing rest : Text}
    (hclose : close 0 (cut (either name) s) = some (body, closing, rest)) :
    tally (begins name) body = tally (ends name) body ∧
      ∀ t, t <+: body → tally (ends name) t ≤ tally (begins name) t := by
  obtain ⟨-, hzero, hopen⟩ := (close_spec hname s 0).1 body closing rest hclose
  refine ⟨?_, fun t ht => ?_⟩
  · rw [Marker.level_eq hname] at hzero
    omega
  · have := hopen t ht
    rw [Marker.level_eq hname] at this
    omega

/-! ## The environment that is found -/

/-- The first begin marker of the name from a place on. -/
def BeginsFirst (name s : Text) (start b c : Nat) : Prop :=
  start ≤ b ∧ At "begin" name s b c ∧ ∀ b' c', start ≤ b' → At "begin" name s b' c' → b ≤ b'

/-- An end marker up to which, from a place on, there are as many begin markers as end markers. -/
def EvensOut (name s : Text) (b p q : Nat) : Prop :=
  b ≤ p ∧ At "end" name s p q ∧ tally (begins name) (s.between b q) = tally (ends name) (s.between b q)

theorem evensOut_drop {s : Text} {k b p q : Nat} :
    EvensOut name (s.drop k) b p q ↔ EvensOut name s (k + b) (k + p) (k + q) := by
  rw [EvensOut, EvensOut, Marker.at_drop, Text.between_drop, Nat.add_le_add_iff_left]

theorem EvensOut.exists_drop {s : Text} {k b p q : Nat} (h : EvensOut name s (k + b) p q) :
    ∃ p' q', p = k + p' ∧ q = k + q' ∧ EvensOut name (s.drop k) b p' q' := by
  have hp : k ≤ p := (Nat.le_add_right k b).trans h.1
  obtain ⟨p, rfl⟩ := Nat.exists_eq_add_of_le hp
  obtain ⟨q, rfl⟩ := Nat.exists_eq_add_of_le (hp.trans h.2.1.le)
  exact ⟨p, q, rfl, rfl, evensOut_drop.2 h⟩

section Found

variable {s : Text} {f : Text.Found Unit} (hname : '\\' ∉ name) (hf : Text.find? (begins name) s = some f)

include hname hf

theorem begins_of_find? : s = f.before ++ (f.source ++ f.after) ∧ IsMarker "begin" name f.source := by
  have hbegins : Slashed (begins name) := Marker.slashed_begins hname
  obtain ⟨-, hs, hread⟩ := hbegins.find?_eq_some hf
  obtain ⟨rest, hafter, he⟩ := Option.map_eq_some_iff.1 hread
  obtain ⟨-, rfl⟩ := Prod.mk.inj he
  obtain ⟨m, hm, hsource⟩ := Marker.after?_eq_some_iff_isMarker.1 hafter
  have hsame : f.source = m := List.append_cancel_right hsource
  exact ⟨hs, hsame ▸ hm⟩

theorem at_of_find? : At "begin" name s f.before.length (f.before ++ f.source).length := by
  obtain ⟨hs, hm⟩ := begins_of_find? hname hf
  exact Marker.at_iff.2 ⟨_, _, _, hs, hm, rfl, rfl⟩

theorem le_of_find? {p q : Nat} (h : At "begin" name s p q) : f.before.length ≤ p := by
  have hbegins : Slashed (begins name) := Marker.slashed_begins hname
  obtain ⟨hmiss, hs, -⟩ := hbegins.find?_eq_some hf
  obtain ⟨-, hsource⟩ := begins_of_find? hname hf
  obtain ⟨z, hz, -⟩ := hsource.slash (by decide) hname
  obtain ⟨x, m, y, hx, hm, rfl, -⟩ := Marker.at_iff.1 h
  rw [hs, hz] at hx
  rcases List.append_eq_append_iff.1 hx with ⟨w, rfl, -⟩ | ⟨w, hw, hrest⟩
  · simp
  · cases w with
    | nil => rw [hw]; simp
    | cons c w =>
      -- the marker would begin in front of the first one, and nothing is read there
      have hread : begins name none (c :: w ++ '\\' :: (z ++ f.after)) = some ((), y) := by
        rw [begins, ← List.cons_append, ← hrest, Marker.after?_eq_some_iff_isMarker.2 ⟨m, hm, rfl⟩, Option.map_some]
      obtain ⟨r, -, hshort⟩ := hbegins.read_shorten (List.cons_ne_nil c w) hread
      rw [hmiss none (c :: w) ⟨x, hw.symm⟩] at hshort
      cases hshort

/-- The end markers up to which the markers even out are those behind the begin marker that step one down. -/
theorem evensOut_iff {p q : Nat} : EvensOut name s f.before.length p q ↔
    ∃ x m y, f.after = x ++ (m ++ y) ∧ IsMarker "end" name m ∧ level name (x ++ m) = -1 ∧
      (f.before ++ (f.source ++ x)).length = p ∧ (f.before ++ (f.source ++ (x ++ m))).length = q := by
  obtain ⟨hs, hsource⟩ := begins_of_find? hname hf
  have htally (x : Text) : tally (begins name) (f.source ++ x) = tally (ends name) (f.source ++ x) ↔ level name x = -1 := by
    have hlevel := Marker.level_eq hname (f.source ++ x)
    rw [Marker.level_begin hname hsource] at hlevel
    omega
  have hbetween (x m y : Text) (hafter : f.after = x ++ (m ++ y)) :
      s.between f.before.length (f.before ++ (f.source ++ (x ++ m))).length = f.source ++ (x ++ m) := by
    have hsplit : s = f.before ++ ((f.source ++ (x ++ m)) ++ y) := by
      rw [hs, hafter]
      simp
    rw [hsplit, Text.between_append]
  constructor
  · rintro ⟨hle, hat, heven⟩
    obtain ⟨x, m, y, hx, hm, rfl, rfl⟩ := Marker.at_iff.1 hat
    obtain ⟨w, rfl, hw⟩ : ∃ w, x = f.before ++ w ∧ f.source ++ f.after = w ++ (m ++ y) := by
      rw [hs] at hx
      rcases List.append_eq_append_iff.1 hx with hsplit | ⟨w, hw, hrest⟩
      · exact hsplit
      · rw [hw, List.length_append] at hle
        obtain rfl : w = [] := List.length_eq_zero_iff.1 (by omega)
        exact ⟨[], by simp [hw], hrest.symm⟩
    obtain ⟨z, hz, -⟩ := hm.slash (by decide) hname
    rcases hsource.apart (by decide) hname ⟨z, hz⟩ hw with rfl | ⟨x, rfl, hafter⟩
    · -- an end marker is no begin marker
      obtain ⟨gap, -, hbegin⟩ := hsource
      obtain ⟨gap', -, hend⟩ := hm
      rw [hbegin, hend] at hw
      cases hw
    · refine ⟨x, m, y, hafter, hm, ?_, rfl, by simp⟩
      have hlen : (f.before ++ (f.source ++ x) ++ m).length = (f.before ++ (f.source ++ (x ++ m))).length := by simp
      rw [hlen, hbetween x m y hafter] at heven
      exact (htally (x ++ m)).1 heven
  · rintro ⟨x, m, y, hafter, hm, hlevel, rfl, rfl⟩
    refine ⟨by simp, ?_, ?_⟩
    · refine Marker.at_iff.2 ⟨f.before ++ (f.source ++ x), m, y, ?_, hm, rfl, by simp⟩
      rw [hs, hafter]
      simp
    · rw [hbetween x m y hafter]
      exact (htally (x ++ m)).2 hlevel

/-- If the search stops nowhere, the markers do not even out. -/
theorem not_evensOut (hclose : close 0 (cut (either name) f.after) = none) (p q : Nat) :
    ¬EvensOut name s f.before.length p q := by
  intro h
  obtain ⟨x, m, y, hafter, -, hlevel, -⟩ := (evensOut_iff hname hf).1 h
  have hopen := (close_spec hname f.after 0).2 hclose (x ++ m) ⟨y, by rw [hafter, List.append_assoc]⟩
  omega

variable {body closing rest : Text} (hclose : close 0 (cut (either name) f.after) = some (body, closing, rest))

include hclose

theorem between_body : s.between (f.before ++ f.source).length (f.before ++ (f.source ++ body)).length = body := by
  have hafter := close_eq hclose
  rw [Text.sources_cut, List.append_assoc] at hafter
  obtain ⟨hs, -⟩ := begins_of_find? hname hf
  rw [hafter, ← List.append_assoc] at hs
  rw [hs, ← List.append_assoc f.before f.source body, Text.between_append]

omit hname in
theorem find_of_close : find name s = .ok (some ⟨name, f.before, f.source, body, closing, rest⟩) := by
  rw [find, hf]
  dsimp only
  rw [hclose]

theorem evensOut_of_close : EvensOut name s f.before.length (f.before ++ (f.source ++ body)).length
    (f.before ++ (f.source ++ (body ++ closing))).length := by
  obtain ⟨hclosing, hzero, -⟩ := (close_spec hname f.after 0).1 body closing rest hclose
  have hafter := close_eq hclose
  rw [Text.sources_cut, List.append_assoc] at hafter
  refine (evensOut_iff hname hf).2 ⟨body, closing, rest, hafter, hclosing, ?_, rfl, rfl⟩
  have hlast : level name closing = -1 := by
    have := Marker.level_end hname hclosing []
    rwa [List.append_nil] at this
  obtain ⟨z, rfl, -⟩ := hclosing.slash (by decide) hname
  rw [Marker.level_append_slash hname, hlast]
  omega

/-- The markers do not even out before the search stops. -/
theorem le_of_evensOut {p q : Nat} (h : EvensOut name s f.before.length p q) :
    (f.before ++ (f.source ++ body)).length ≤ p := by
  obtain ⟨hclosing, -, hopen⟩ := (close_spec hname f.after 0).1 body closing rest hclose
  have hafter := close_eq hclose
  rw [Text.sources_cut, List.append_assoc] at hafter
  obtain ⟨x, m, y, hx, hm, hlevel, rfl, -⟩ := (evensOut_iff hname hf).1 h
  suffices body.length ≤ x.length by
    simp only [List.length_append]
    omega
  rw [hx] at hafter
  rcases List.append_eq_append_iff.1 hafter with ⟨w, rfl, hw⟩ | ⟨w, rfl, -⟩
  · obtain ⟨z, hz, -⟩ := hclosing.slash (by decide) hname
    rcases hm.apart (by decide) hname ⟨z, hz⟩ hw with rfl | ⟨w, rfl, -⟩
    · simp
    · have := hopen (x ++ m) ⟨w, by rw [List.append_assoc]⟩
      omega
  · simp

end Found

theorem find_eq_none_iff {s : Text} : find name s = .ok none ↔ Text.find? (begins name) s = none := by
  rw [find]
  cases hf : Text.find? (begins name) s with
  | none => simp
  | some f => cases hclose : close 0 (cut (either name) f.after) <;> simp [hclose]

theorem find?_eq_none_iff (hname : '\\' ∉ name) {s : Text} :
    Text.find? (begins name) s = none ↔ ∀ p q, ¬At "begin" name s p q := by
  have hbegins : Slashed (begins name) := Marker.slashed_begins hname
  constructor
  · intro hnone p q hat
    have hmiss := hbegins.forward.misses_of_find?_eq_none (hbegins.read_nil none) hnone
    obtain ⟨x, m, y, rfl, hm, -, -⟩ := Marker.at_iff.1 hat
    have hread := hmiss none (m ++ y) (List.suffix_append x _)
    rw [begins, Marker.after?_eq_some_iff_isMarker.2 ⟨m, hm, rfl⟩] at hread
    cases hread
  · intro hnone
    cases hf : Text.find? (begins name) s with
    | none => rfl
    | some f => exact absurd (at_of_find? hname hf) (hnone _ _)

theorem beginsFirst_of_find? (hname : '\\' ∉ name) {s : Text} {start : Nat} {f : Text.Found Unit}
    (hf : Text.find? (begins name) (s.drop start) = some f) :
    BeginsFirst name s start (start + f.before.length) (start + (f.before ++ f.source).length) := by
  refine ⟨Nat.le_add_right _ _, Marker.at_drop.1 (at_of_find? hname hf), fun b c hb hat => ?_⟩
  obtain ⟨b, rfl⟩ := Nat.exists_eq_add_of_le hb
  obtain ⟨c, rfl⟩ := Nat.exists_eq_add_of_le (hb.trans hat.le)
  exact Nat.add_le_add_left (le_of_find? hname hf (Marker.at_drop.2 hat)) start

/-- The first begin marker is the one that is found. -/
theorem exists_find?_of_beginsFirst (hname : '\\' ∉ name) {s : Text} {start b c : Nat} (h : BeginsFirst name s start b c) :
    ∃ f, Text.find? (begins name) (s.drop start) = some f ∧ start + f.before.length = b ∧
      start + (f.before ++ f.source).length = c := by
  obtain ⟨hstart, hat, hfirst⟩ := h
  cases hf : Text.find? (begins name) (s.drop start) with
  | none =>
    obtain ⟨b, rfl⟩ := Nat.exists_eq_add_of_le hstart
    obtain ⟨c, rfl⟩ := Nat.exists_eq_add_of_le (hstart.trans hat.le)
    exact absurd (Marker.at_drop.2 hat) ((find?_eq_none_iff hname).1 hf b c)
  | some f =>
    obtain ⟨hle, hfound, hleast⟩ := beginsFirst_of_find? hname hf
    obtain rfl : start + f.before.length = b := by
      have := hfirst _ _ hle hfound
      have := hleast _ _ hstart hat
      omega
    exact ⟨f, rfl, rfl, hfound.unique hat⟩

/-- No environment is found just if none begins from the place on. -/
theorem find_drop_eq_none_iff (hname : '\\' ∉ name) {s : Text} {start : Nat} :
    find name (s.drop start) = .ok none ↔ ∀ b c, start ≤ b → ¬At "begin" name s b c := by
  rw [find_eq_none_iff, find?_eq_none_iff hname]
  constructor
  · intro hnone b c hb hat
    obtain ⟨b, rfl⟩ := Nat.exists_eq_add_of_le hb
    obtain ⟨c, rfl⟩ := Nat.exists_eq_add_of_le (hb.trans hat.le)
    exact hnone b c (Marker.at_drop.2 hat)
  · intro hnone b c hat
    exact hnone _ _ (Nat.le_add_right start b) (Marker.at_drop.1 hat)

/-- The environment of a name is the part of the text from the first begin marker to the first end marker up to which the
    markers even out; it is unclosed just if they never do. Its body has as many end markers as begin markers, and no
    beginning of the body has more. -/
theorem find_evens_out (name s : Text) (start : Nat) (hname : '\\' ∉ name) :
    (find name (s.drop start) = .ok none ↔ ∀ b c, start ≤ b → ¬At "begin" name s b c) ∧
    ∀ b c, BeginsFirst name s start b c →
      (find name (s.drop start) = .error (.environment name (s.length - b)) ↔ ∀ p q, ¬EvensOut name s b p q) ∧
      ∀ p q, EvensOut name s b p q → (∀ p' q', EvensOut name s b p' q' → p ≤ p') →
        ∃ e, find name (s.drop start) = .ok (some e) ∧ e.name = name ∧ start + e.start = b ∧ start + e.bodyStart = c ∧
          start + e.bodyEnd = p ∧ start + e.stop = q ∧ e.body = s.between c p ∧
          tally (begins name) e.body = tally (ends name) e.body ∧
          ∀ t, t <+: e.body → tally (ends name) t ≤ tally (begins name) t := by
  refine ⟨find_drop_eq_none_iff hname, ?_⟩
  intro b c hfirst
  obtain ⟨f, hf, rfl, rfl⟩ := exists_find?_of_beginsFirst hname hfirst
  cases hclose : close 0 (cut (either name) f.after) with
  | none =>
    have herror : find name (s.drop start) = .error (.environment name (s.length - (start + f.before.length))) := by
      rw [find, hf]
      dsimp only
      rw [hclose, List.length_drop, Nat.sub_sub]
    have hnone (p q : Nat) : ¬EvensOut name s (start + f.before.length) p q := by
      intro h
      obtain ⟨p, q, -, -, hinner⟩ := h.exists_drop
      exact not_evensOut hname hf hclose p q hinner
    exact ⟨iff_of_true herror hnone, fun p q h => absurd h (hnone p q)⟩
  | some r =>
    obtain ⟨body, closing, rest⟩ := r
    have hfind := find_of_close hf hclose
    have hends := evensOut_of_close hname hf hclose
    refine ⟨iff_of_false ?_ ?_, fun p q h hleast => ?_⟩
    · rw [hfind]
      exact fun h => by cases h
    · exact fun hnone => hnone _ _ (evensOut_drop.1 hends)
    -- the least place is the one at which the search stops: it is one of these places, and none is in front of it
    have hle := hleast _ _ (evensOut_drop.1 hends)
    obtain ⟨p, q, rfl, rfl, hinner⟩ := h.exists_drop
    have hge := le_of_evensOut hname hf hclose hinner
    obtain rfl : (f.before ++ (f.source ++ body)).length = p := by omega
    obtain rfl := hends.2.1.unique hinner.2.1
    refine ⟨_, hfind, rfl, rfl, ?_, ?_, ?_, ?_, even_body hname hclose⟩
    · simp [bodyStart, Environment.start]
    · simp [bodyEnd, bodyStart, Environment.start, Nat.add_assoc]
    · simp [stop, bodyEnd, bodyStart, Environment.start, Nat.add_assoc]
    · rw [← Text.between_drop]
      exact (between_body hname hf hclose).symm

theorem find_evens_out_nested :
    let name : Text := "a"
    let s : Text := "\\end\x7ba\x7d\\begin \x7ba\x7dx\\begin\x7ba\x7d\\end\x7bb\x7d\\end\n\x7ba\x7dy\\end\x7ba\x7d\\end\x7ba\x7d"
    '\\' ∉ name ∧ BeginsFirst name s 1 7 17 ∧ EvensOut name s 7 43 50 ∧ (∀ p q, EvensOut name s 7 p q → 43 ≤ p) ∧
      ∃ e, find name (s.drop 1) = .ok (some e) ∧ 1 + e.bodyStart = 17 ∧ 1 + e.stop = 50 := by
  intro name s
  have hname : '\\' ∉ name := by decide
  let f : Text.Found Unit := ⟨"end\x7ba\x7d", (), "\\begin \x7ba\x7d", s.drop 17⟩
  have hf : Text.find? (begins name) (s.drop 1) = some f := rfl
  have hclose : close 0 (cut (either name) f.after) = some (s.between 17 43, s.between 43 50, s.drop 50) := rfl
  have hfirst : BeginsFirst name s 1 7 17 := beginsFirst_of_find? hname hf
  have heven : EvensOut name s 7 43 50 := evensOut_drop.1 (evensOut_of_close hname hf hclose)
  have hleast : ∀ p q, EvensOut name s 7 p q → 43 ≤ p := by
    intro p q h
    obtain ⟨p, q, rfl, rfl, hinner⟩ := EvensOut.exists_drop (k := 1) (b := 6) h
    exact Nat.add_le_add_left (le_of_evensOut hname hf hclose hinner) 1
  obtain ⟨-, hfound⟩ := find_evens_out name s 1 hname
  obtain ⟨-, hfound⟩ := hfound 7 17 hfirst
  obtain ⟨e, hfind, -, -, hbody, -, hstop, -⟩ := hfound 43 50 heven hleast
  exact ⟨hname, hfirst, heven, hleast, e, hfind, hbody, hstop⟩

end Environment

end Galley
