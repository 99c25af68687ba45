import Galley.Proofs.Search
/-!
# Markers stay apart

A marker is a backslash and characters other than backslashes, read alike whatever stands behind it (`Slashed`). So no
marker reaches over the backslash of another one: a text is cut in front of a backslash into two texts that are cut on
their own (`Slashed.cut_append`), and an environment closes at the same marker whatever stands behind it
(`Slashed.close_cut_append`) and is found whatever stands in front of it (`Environment.find_append`).
-/

namespace Galley

variable {α : Type}

/-! ## Markers word for word -/

namespace Marker

/-- A marker with white space between the word and the name. -/
def source (word gap name : Text) : Text := '\\' :: (word ++ (gap ++ '{' :: (name ++ ['}'])))

theorem source_append (word gap name u : Text) :
    source word gap name ++ u = '\\' :: (word ++ (gap ++ '{' :: (name ++ '}' :: u))) := by simp [source]

variable {word gap name : Text}

theorem after?_eq_some_iff {s rest : Text} : after? word name s = some rest ↔
    ∃ gap, (∀ c ∈ gap, isBlank c = true) ∧ s = source word gap name ++ rest := by
  simp only [after?, Option.bind_eq_bind, Option.bind_eq_some_iff, Text.after?_eq_some_iff, source_append]
  constructor
  · rintro ⟨s₁, rfl, s₂, h₂, s₃, rfl, rfl⟩
    obtain ⟨gap, hgap, hblank⟩ := Text.dropWhile_eq isBlank s₁
    refine ⟨gap, hblank, ?_⟩
    rw [hgap, h₂]
    rfl
  · rintro ⟨gap, hblank, rfl⟩
    refine ⟨_, rfl, name ++ '}' :: rest, ?_, '}' :: rest, rfl, rfl⟩
    rw [List.dropWhile_append_of_pos hblank]
    rfl

theorem after?_source (hgap : ∀ c ∈ gap, isBlank c = true) (u : Text) : after? word name (source word gap name ++ u) = some u :=
  after?_eq_some_iff.2 ⟨gap, hgap, rfl⟩

/-- Of names without braces at most one is read. -/
theorem after?_source_of_ne {n : Text} (hgap : ∀ c ∈ gap, isBlank c = true) (hname : '}' ∉ name) (hn : '}' ∉ n) (hne : n ≠ name)
    (u : Text) : after? word name (source word gap n ++ u) = none := by
  have hdrop : (gap ++ '{' :: (n ++ '}' :: u)).dropWhile isBlank = '{' :: (n ++ '}' :: u) := by
    rw [List.dropWhile_append_of_pos hgap]
    rfl
  have hword : Text.after? ('\\' :: word) ('\\' :: (word ++ (gap ++ '{' :: (n ++ '}' :: u)))) =
      some (gap ++ '{' :: (n ++ '}' :: u)) :=
    Text.after?_append ('\\' :: word) _
  have hbrace : Text.after? "\x7b" ('{' :: (n ++ '}' :: u)) = some (n ++ '}' :: u) := rfl
  have hbraced := after?_braced hname hn u
  rw [if_neg hne] at hbraced
  rw [source_append, after?, hword]
  simp only [Option.bind_eq_bind, Option.bind_some, hdrop, hbrace, hbraced]

theorem after?_begin_end (n gap name u : Text) : after? "begin" n (source "end" gap name ++ u) = none := rfl

theorem after?_end_begin (n gap name u : Text) : after? "end" n (source "begin" gap name ++ u) = none := rfl

/-- Behind its backslash a marker holds no other. -/
theorem slash_not_mem (hword : '\\' ∉ word) (hgap : ∀ c ∈ gap, isBlank c = true) (hname : '\\' ∉ name) :
    '\\' ∉ word ++ (gap ++ '{' :: (name ++ ['}'])) := by
  have hblank : '\\' ∉ gap := fun hm => absurd (hgap _ hm) (by decide)
  simp [hword, hblank, hname]

end Marker

namespace Text

/-! ## Readers of one backslash -/

/-- What is read is a backslash and characters other than backslashes, whatever stands behind it. -/
def Slashed (read : Reader α) : Prop :=
  ∀ {b s a rest}, read b s = some (a, rest) →
    ∃ x, '\\' ∉ x ∧ s = '\\' :: (x ++ rest) ∧ ∀ b u, read b ('\\' :: (x ++ u)) = some (a, u)

namespace Slashed

variable {read : Reader α} (h : Slashed read)

include h

theorem firm : Firm read := by
  intro b s a rest hr
  obtain ⟨x, -, hs, hx⟩ := h hr
  exact ⟨'\\' :: x, List.cons_ne_nil _ _, hs, hx⟩

theorem forward : Forward read := Firm.forward (firm h)

theorem read_nil (b : Option Char) : read b [] = none := by
  cases hr : read b [] with
  | none => rfl
  | some r =>
    obtain ⟨a, rest⟩ := r
    obtain ⟨x, -, hs, -⟩ := h hr
    cases hs

/-- What is read begins with a backslash. -/
theorem read_of_ne {b : Option Char} {c : Char} (hc : c ≠ '\\') (s : Text) : read b (c :: s) = none := by
  cases hr : read b (c :: s) with
  | none => rfl
  | some r =>
    obtain ⟨a, rest⟩ := r
    obtain ⟨x, -, hs, -⟩ := h hr
    exact absurd (List.cons.inj hs).1 hc

theorem misses {s : Text} (hs : '\\' ∉ s) : Misses read s := by
  intro b t ht
  cases t with
  | nil => exact h.read_nil b
  | cons c t => exact h.read_of_ne (fun hc => hs (ht.subset (hc ▸ List.mem_cons_self))) t

/-- What is read in a text is read in every longer one. -/
theorem read_extend {b : Option Char} {s rest : Text} {a : α} (hr : read b s = some (a, rest)) (u : Text) :
    read b (s ++ u) = some (a, rest ++ u) := by
  obtain ⟨x, -, rfl, hx⟩ := h hr
  have := hx b (rest ++ u)
  rwa [← List.append_assoc] at this

/-- Nothing is read over a backslash. -/
theorem read_shorten {b : Option Char} {s u rest : Text} {a : α} (hne : s ≠ [])
    (hr : read b (s ++ '\\' :: u) = some (a, rest)) : ∃ r, rest = r ++ '\\' :: u ∧ read b s = some (a, r) := by
  obtain ⟨x, hx, hs, hread⟩ := h hr
  obtain ⟨c, s, rfl⟩ := List.exists_cons_of_ne_nil hne
  obtain ⟨rfl, htail⟩ := List.cons.inj (List.cons_append ▸ hs)
  rcases List.append_eq_append_iff.1 htail with ⟨y, rfl, hy⟩ | ⟨y, rfl, rfl⟩
  · cases y with
    | nil => exact ⟨[], hy.symm, by simpa using hread b []⟩
    | cons e y =>
      rw [List.cons_append] at hy
      obtain rfl := (List.cons.inj hy).1
      simp at hx
  · exact ⟨y, rfl, hread b y⟩

theorem read_append_slash {b : Option Char} {s : Text} (hne : s ≠ []) (u : Text) :
    read b (s ++ '\\' :: u) = (read b s).map fun r => (r.1, r.2 ++ '\\' :: u) := by
  cases hr : read b s with
  | some r => exact h.read_extend hr _
  | none =>
    cases hlong : read b (s ++ '\\' :: u) with
    | none => rfl
    | some r =>
      obtain ⟨a, rest⟩ := r
      obtain ⟨t, -, ht⟩ := h.read_shorten hne hlong
      rw [hr] at ht
      cases ht

/-- Where nothing is read in front of a backslash, nothing is read in a longer text. -/
theorem read_eq_none_append {b : Option Char} {c : Char} {s : Text} (hs : '\\' ∈ s) (hr : read b (c :: s) = none) (u : Text) :
    read b (c :: (s ++ u)) = none := by
  obtain ⟨x, y, rfl⟩ := List.append_of_mem hs
  have hshort : read b (c :: x) = none := by
    rw [← List.cons_append, h.read_append_slash (List.cons_ne_nil c x)] at hr
    exact Option.map_eq_none_iff.1 hr
  rw [List.append_assoc, List.cons_append, ← List.cons_append, h.read_append_slash (List.cons_ne_nil c x), hshort,
    Option.map_none]

/-! ### Places where nothing is read -/

theorem misses_append_slash {s u : Text} (hs : Misses read s) (hu : Misses read ('\\' :: u)) : Misses read (s ++ '\\' :: u) := by
  intro b t ht
  rcases suffix_append_cases ht with ht | ⟨y, hne, hy, rfl⟩
  · exact hu b t ht
  · rw [h.read_append_slash hne, hs b y hy, Option.map_none]

theorem misses_of_not_mem_append {x u : Text} (hx : '\\' ∉ x) (hu : Misses read u) : Misses read (x ++ u) := by
  intro b t ht
  rcases suffix_append_cases ht with ht | ⟨y, hne, hy, rfl⟩
  · exact hu b t ht
  · obtain ⟨c, y, rfl⟩ := List.exists_cons_of_ne_nil hne
    exact h.read_of_ne (fun hc => hx (hy.subset (hc ▸ List.mem_cons_self))) (y ++ u)

/-! ### Cutting -/

/-- A text is cut in front of a backslash into two texts cut on their own. -/
theorem cut_append_slash (s u : Text) : cut read (s ++ '\\' :: u) = cut read s ++ cut read ('\\' :: u) := by
  induction s using Firm.induct (firm h) with
  | nil => rfl
  | char c s hr ih =>
    have hlong : read none (c :: (s ++ '\\' :: u)) = none := by
      have := h.read_append_slash (b := none) (List.cons_ne_nil c s) u
      rwa [hr, Option.map_none] at this
    rw [List.cons_append, h.forward.cut_cons hlong, h.forward.cut_cons hr, ih, List.cons_append]
  | hit s a rest hr ih =>
    obtain ⟨x, -, rfl, hx⟩ := h hr
    have hlong := hx none (rest ++ '\\' :: u)
    rw [List.cons_append, List.append_assoc, h.forward.cut_hit hlong rfl, h.forward.cut_hit hr rfl, ih, List.cons_append]

theorem cut_append_of_not_mem {t : Text} (ht : '\\' ∉ t) (s : Text) : cut read (t ++ s) = t.map .char ++ cut read s := by
  induction t with
  | nil => rfl
  | cons c t ih =>
    obtain ⟨hc, ht⟩ := not_or.1 (mt List.mem_cons.2 ht)
    have hr : read none (c :: (t ++ s)) = none := h.read_of_ne (Ne.symm hc) _
    rw [List.cons_append, h.forward.cut_cons hr, ih ht, List.map_cons, List.cons_append]

/-! ### Searching -/

/-- What is found first behind a text in which nothing begins. -/
theorem find?_append {s : Text} : ∀ (t : Text), (∀ u, u <:+ t → u ≠ [] → read none (u ++ s) = none) →
    find? read (t ++ s) = (find? read s).map fun f => { f with before := t ++ f.before }
  | [], _ => by simp
  | c :: t, ht => by
    have hrest := find?_append t fun u hu => ht u (hu.trans (List.suffix_cons c t))
    have hr : read none (c :: (t ++ s)) = none := ht (c :: t) (List.suffix_refl _) (List.cons_ne_nil c t)
    rw [find?] at hrest ⊢
    rw [List.cons_append, findFrom, hr]
    dsimp only
    rw [h.forward.findFrom_eq (some c) none, hrest, Option.map_map]
    rfl

theorem slash_mem_of_find? {s : Text} {b : Option Char} {f : Found α} (hf : findFrom read b s = some f) : '\\' ∈ s := by
  refine Decidable.of_not_not fun hs => ?_
  rw [(h.misses hs).findFrom_eq] at hf
  cases hf

/-- What is found in a text is found in every longer one. -/
theorem findFrom_extend {s : Text} {b : Option Char} {f : Found α} (hf : findFrom read b s = some f) (u : Text) :
    findFrom read b (s ++ u) = some { f with after := f.after ++ u } := by
  induction s generalizing b f with
  | nil => cases hf
  | cons c s ih =>
    rw [findFrom] at hf
    cases hr : read b (c :: s) with
    | some r =>
      obtain ⟨a, rest⟩ := r
      rw [hr] at hf
      obtain rfl := Option.some.inj hf
      obtain ⟨x, -, hs, -⟩ := h hr
      have hlong := h.read_extend hr u
      rw [List.cons_append] at hlong ⊢
      have hsource : upTo (c :: (s ++ u)) (rest ++ u) = upTo (c :: s) rest := by
        have hcut (v : Text) : upTo ('\\' :: (x ++ v)) v = '\\' :: x := upTo_append_rest ('\\' :: x) v
        have hlonger : c :: (s ++ u) = '\\' :: (x ++ (rest ++ u)) := by rw [← List.cons_append, hs]; simp
        rw [hlonger, hs, hcut, hcut]
      rw [findFrom, hlong]
      dsimp only
      rw [hsource]
    | none =>
      rw [hr] at hf
      obtain ⟨g, hg, rfl⟩ := Option.map_eq_some_iff.1 hf
      rw [List.cons_append, findFrom, h.read_eq_none_append (h.slash_mem_of_find? hg) hr u]
      dsimp only
      rw [ih hg, Option.map_some]

/-- What is found is a backslash and characters other than backslashes. -/
theorem source_of_findFrom {s : Text} {b : Option Char} {f : Found α} (hf : findFrom read b s = some f) :
    ∃ x, '\\' ∉ x ∧ f.source = '\\' :: x := by
  induction s generalizing b f with
  | nil => cases hf
  | cons c s ih =>
    rw [findFrom] at hf
    cases hr : read b (c :: s) with
    | some r =>
      obtain ⟨a, rest⟩ := r
      rw [hr] at hf
      obtain rfl := Option.some.inj hf
      obtain ⟨x, hx, hs, -⟩ := h hr
      exact ⟨x, hx, by rw [hs]; exact upTo_append_rest ('\\' :: x) rest⟩
    | none =>
      rw [hr] at hf
      obtain ⟨g, hg, rfl⟩ := Option.map_eq_some_iff.1 hf
      exact ih (f := g) hg

end Slashed

end Text

namespace Marker

open Text (Slashed)

variable {name : Text}

/-- A marker of a word and a name. -/
def reads (word name : Text) : Reader Unit := fun _ s => (after? word name s).map ((), ·)

theorem slashed_reads {word : Text} (hword : '\\' ∉ word) (hname : '\\' ∉ name) : Slashed (reads word name) := by
  intro b s a rest hr
  obtain ⟨r, hafter, he⟩ := Option.map_eq_some_iff.1 hr
  obtain ⟨-, rfl⟩ := Prod.mk.inj he
  obtain ⟨gap, hgap, rfl⟩ := after?_eq_some_iff.1 hafter
  refine ⟨_, slash_not_mem hword hgap hname, rfl, fun b u => ?_⟩
  exact Option.map_eq_some_iff.2 ⟨u, after?_source hgap u, rfl⟩

theorem slashed_begins (hname : '\\' ∉ name) : Slashed (begins name) := @slashed_reads name "begin" (by decide) hname

theorem either_begin {gap : Text} (hgap : ∀ c ∈ gap, isBlank c = true) (b : Option Char) (u : Text) :
    either name b (source "begin" gap name ++ u) = some (true, u) := by
  rw [either, after?_source hgap]

theorem either_end {gap : Text} (hgap : ∀ c ∈ gap, isBlank c = true) (b : Option Char) (u : Text) :
    either name b (source "end" gap name ++ u) = some (false, u) := by
  rw [either, after?_begin_end]
  dsimp only
  rw [after?_source hgap, Option.map_some]

theorem either_eq_some {b : Option Char} {s rest : Text} {sense : Bool} (h : either name b s = some (sense, rest)) :
    ∃ gap, (∀ c ∈ gap, isBlank c = true) ∧ s = source (if sense then "begin" else "end") gap name ++ rest := by
  rw [either] at h
  split at h
  · rename_i r hr
    obtain ⟨rfl, rfl⟩ := Prod.mk.inj (Option.some.inj h)
    exact after?_eq_some_iff.1 hr
  · obtain ⟨r, hr, he⟩ := Option.map_eq_some_iff.1 h
    obtain ⟨rfl, rfl⟩ := Prod.mk.inj he
    exact after?_eq_some_iff.1 hr

theorem slashed_either (hname : '\\' ∉ name) : Slashed (either name) := by
  intro b s sense rest hr
  obtain ⟨gap, hgap, rfl⟩ := either_eq_some hr
  cases sense with
  | true => exact ⟨_, slash_not_mem (by decide) hgap hname, rfl, fun b u => either_begin hgap b u⟩
  | false => exact ⟨_, slash_not_mem (by decide) hgap hname, rfl, fun b u => either_end hgap b u⟩

theorem beginsAny_eq_some {names : List Text} {b : Option Char} {s n rest : Text} (h : beginsAny names b s = some (n, rest)) :
    n ∈ names ∧ ∃ gap, (∀ c ∈ gap, isBlank c = true) ∧ s = source "begin" gap n ++ rest := by
  obtain ⟨m, hm, h⟩ := List.exists_of_findSome?_eq_some h
  obtain ⟨r, hr, he⟩ := Option.map_eq_some_iff.1 h
  obtain ⟨rfl, rfl⟩ := Prod.mk.inj he
  exact ⟨hm, after?_eq_some_iff.1 hr⟩

theorem beginsAny_source {names : List Text} (hnames : ∀ n ∈ names, '}' ∉ n) {gap n : Text} (hgap : ∀ c ∈ gap, isBlank c = true)
    (hn : '}' ∉ n) (b : Option Char) (u : Text) :
    beginsAny names b (source "begin" gap n ++ u) = if n ∈ names then some (n, u) else none := by
  induction names with
  | nil => rfl
  | cons m names ih =>
    obtain ⟨hm, hnames⟩ := List.forall_mem_cons.1 hnames
    rw [beginsAny, List.findSome?_cons]
    by_cases he : n = m
    · subst he
      rw [after?_source hgap]
      simp
    · rw [after?_source_of_ne hgap hm hn he, Option.map_none]
      dsimp only
      rw [← beginsAny, ih hnames]
      simp [he]

theorem slashed_beginsAny {names : List Text} (hslash : ∀ n ∈ names, '\\' ∉ n) (hnames : ∀ n ∈ names, '}' ∉ n) :
    Slashed (beginsAny names) := by
  intro b s n rest hr
  obtain ⟨hn, gap, hgap, rfl⟩ := beginsAny_eq_some hr
  refine ⟨_, slash_not_mem (by decide) hgap (hslash n hn), rfl, fun b u => ?_⟩
  have := beginsAny_source hnames hgap (hnames n hn) b u
  rwa [if_pos hn] at this

end Marker

/-! ## Environments among other text -/

namespace Text.Slashed

variable {read : Reader Bool} (h : Slashed read)

include h

theorem slash_mem_of_close {d : Nat} {s : Text} {r : Text × Text × Text} (hc : Environment.close d (cut read s) = some r) :
    '\\' ∈ s := by
  refine Decidable.of_not_not fun hs => ?_
  rw [(h.misses hs).cut_eq] at hc
  have hnone := Row.close_map_char d s []
  rw [List.append_nil] at hnone
  rw [hnone] at hc
  cases hc

/-- An environment closes at the same marker whatever stands behind it. -/
theorem close_cut_append {s : Text} {d : Nat} {body closing rest : Text}
    (hc : Environment.close d (cut read s) = some (body, closing, rest)) (u : Text) :
    Environment.close d (cut read (s ++ u)) = some (body, closing, rest ++ u) := by
  induction s using Firm.induct (firm h) generalizing d body with
  | nil => cases hc
  | char c s hr ih =>
    rw [h.forward.cut_cons hr] at hc
    obtain ⟨⟨b, r⟩, hb, he⟩ := Option.map_eq_some_iff.1 hc
    obtain ⟨rfl, rfl⟩ := Prod.mk.inj he
    have hlong : read none (c :: (s ++ u)) = none :=
      h.read_eq_none_append (h.slash_mem_of_close hb) hr u
    rw [List.cons_append, h.forward.cut_cons hlong, Environment.close, ih hb, Option.map_some]
  | hit s sense t hr ih =>
    obtain ⟨x, -, rfl, hx⟩ := h hr
    rw [h.forward.cut_hit hr rfl] at hc
    rw [List.cons_append, List.append_assoc, h.forward.cut_hit (hx none (t ++ u)) rfl]
    have keep {d : Nat} {body : Text}
        (hm : (Environment.close d (cut read t)).map (fun p => ('\\' :: x ++ p.1, p.2)) = some (body, closing, rest)) :
        (Environment.close d (cut read (t ++ u))).map (fun p => ('\\' :: x ++ p.1, p.2)) =
          some (body, closing, rest ++ u) := by
      obtain ⟨⟨b, r⟩, hb, he⟩ := Option.map_eq_some_iff.1 hm
      obtain ⟨rfl, rfl⟩ := Prod.mk.inj he
      rw [ih hb, Option.map_some]
    cases sense with
    | true => exact keep hc
    | false =>
      cases d with
      | succ d => exact keep hc
      | zero =>
        rw [Environment.close, sources_cut] at hc ⊢
        cases hc
        rfl

end Text.Slashed

namespace Environment

variable {name : Text}

/-- An environment begins with a backslash. -/
theorem source_of_find (hname : '\\' ∉ name) {s : Text} {e : Environment} (h : find name s = .ok (some e)) :
    ∃ x, e.source = '\\' :: x := by
  have hbegins : Text.Slashed (Marker.begins name) := Marker.slashed_begins hname
  unfold find at h
  split at h
  · cases h
  · rename_i f hf
    split at h
    · rename_i body closing rest hc
      obtain rfl := Option.some.inj (Except.ok.inj h)
      obtain ⟨x, -, hx⟩ := hbegins.source_of_findFrom hf
      exact ⟨x ++ (body ++ closing), by simp [source, hx]⟩
    · cases h

/-- An environment is found as it is behind a text in which none begins, whatever stands behind it. -/
theorem find_append (hname : '\\' ∉ name) {s : Text} {e : Environment} (h : find name s = .ok (some e)) {a : Text}
    (ha : ∀ t, t <:+ a → t ≠ [] → Marker.begins name none (t ++ s) = none) (u : Text) :
    find name (a ++ (s ++ u)) = .ok (some { e with before := a ++ e.before, after := e.after ++ u }) := by
  have hbegins : Text.Slashed (Marker.begins name) := Marker.slashed_begins hname
  unfold find at h
  split at h
  · cases h
  · rename_i f hf
    split at h
    · rename_i body closing rest hc
      obtain rfl := Option.some.inj (Except.ok.inj h)
      have hnone : ∀ t, t <:+ a → t ≠ [] → Marker.begins name none (t ++ (s ++ u)) = none := by
        intro t ht hne
        obtain ⟨c, t, rfl⟩ := List.exists_cons_of_ne_nil hne
        have hslash : '\\' ∈ t ++ s := List.mem_append_right t (hbegins.slash_mem_of_find? hf)
        have := hbegins.read_eq_none_append hslash (ha _ ht hne) u
        rwa [List.append_assoc] at this
      have hlong : Text.find? (Marker.begins name) (s ++ u) = some { f with after := f.after ++ u } :=
        hbegins.findFrom_extend hf u
      have heither : Text.Slashed (Marker.either name) := Marker.slashed_either hname
      have hclose := heither.close_cut_append hc u
      rw [find, hbegins.find?_append a hnone, hlong, Option.map_some]
      dsimp only
      rw [hclose]
    · cases h

/-- Where no environment is found, none is found behind a text in which none begins. -/
theorem find_append_of_none (hname : '\\' ∉ name) {s : Text} (h : ∀ e, find name s ≠ .ok (some e)) {a : Text}
    (ha : ∀ t, t <:+ a → t ≠ [] → Marker.begins name none (t ++ s) = none) : find name (a ++ s) = find name s := by
  have hbegins : Text.Slashed (Marker.begins name) := Marker.slashed_begins hname
  have hfind := hbegins.find?_append a ha
  rw [find, find, hfind]
  cases hf : Text.find? (Marker.begins name) s with
  | none => rfl
  | some f =>
    have hclose : close 0 (f.after.cut (Marker.either name)) = none := by
      cases hc : close 0 (f.after.cut (Marker.either name)) with
      | none => rfl
      | some r =>
        refine absurd ?_ (h ⟨name, f.before, f.source, r.1, r.2.1, r.2.2⟩)
        rw [find, hf]
        dsimp only
        rw [hc]
    rw [Option.map_some]
    dsimp only
    rw [hclose]
    simp only [List.length_append, Nat.add_sub_add_left]

end Environment

end Galley
