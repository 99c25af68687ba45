import Galley.Proofs.Commands
import Galley.Proofs.Parts
/-!
# The grammar of groups

A group is its delimiters around a row of items (`Items`). The readers of groups count instead: how many groups are open,
and for a bracket group how many brace groups hide its brackets (`Depth`). Outside quotes this depth alone decides what a
reader does with a character (`readOn_char`). One way, a row of items is passed over (`Items.readOn_append`). The other
way, what is read at any depth is one row of items for each group that is still open (`rest_of_readOn`). So the readers
accept the groups of the grammar and no others (`inside?_eq_some_iff`), each with one end (`Span.opened_iff`).
-/

namespace Galley

/-- Induction over a text that takes a backslash with the character behind it. -/
theorem Text.escapeInduct {motive : Text → Prop} (nil : motive []) (last : motive ['\\'])
    (escape : ∀ c s, motive s → motive ('\\' :: c :: s)) (char : ∀ c s, c ≠ '\\' → motive s → motive (c :: s)) (s : Text) :
    motive s := by
  induction hlen : s.length using Nat.strongRecOn generalizing s with
  | ind k ih =>
    cases s with
    | nil => exact nil
    | cons c s =>
      rw [List.length_cons] at hlen
      by_cases hc : c = '\\'
      · subst hc
        cases s with
        | nil => exact last
        | cons c s =>
          rw [List.length_cons] at hlen
          exact escape c s (ih s.length (by omega) s rfl)
      · exact char c s hc (ih s.length (by omega) s rfl)

namespace Group

/-! ## Groups by the grammar -/

/-- What may stand between two double quotes that are one item: only escape pairs are special there. -/
inductive Quotation : Text → Prop
  | nil : Quotation []
  | escape {s : Text} (c : Char) : Quotation s → Quotation ('\\' :: c :: s)
  | char {c : Char} {s : Text} : c ≠ '\\' → c ≠ '"' → Quotation s → Quotation (c :: s)

/-- A character that is an item of its own. A closing brace is one in a bracket group, brackets are in a brace group. -/
def IsOrdinary (quotes : Bool) (d : Delimiter) (c : Char) : Prop :=
  c ≠ '\\' ∧ c ≠ '{' ∧ (quotes = true → c ≠ '"') ∧
    match d with
    | .brace => c ≠ '}'
    | .bracket => c ≠ '[' ∧ c ≠ ']'

/-- The items between the delimiters of a group. -/
inductive Items (quotes : Bool) : Delimiter → Text → Prop
  | nil {d : Delimiter} : Items quotes d []
  | escape {d : Delimiter} {s : Text} (c : Char) : Items quotes d s → Items quotes d ('\\' :: c :: s)
  | char {d : Delimiter} {c : Char} {s : Text} : IsOrdinary quotes d c → Items quotes d s → Items quotes d (c :: s)
  | quotation {d : Delimiter} {t s : Text} : quotes = true → Quotation t → Items quotes d s →
      Items quotes d ('"' :: (t ++ '"' :: s))
  | braces {d : Delimiter} {t s : Text} : Items quotes .brace t → Items quotes d s → Items quotes d ('{' :: (t ++ '}' :: s))
  | brackets {t s : Text} : Items quotes .bracket t → Items quotes .bracket s →
      Items quotes .bracket ('[' :: (t ++ ']' :: s))

/-- A group is its delimiters around items. -/
def IsGroup (quotes : Bool) (d : Delimiter) (s : Text) : Prop := ∃ t, s = d.opener :: (t ++ [d.closer]) ∧ Items quotes d t

/-! ## Groups by depth -/

/-- How deep a reader stands: in brace groups inside a brace group, or in bracket groups inside a bracket group and in the
    brace groups inside these. -/
inductive Depth where
  | braces (inner : Nat)
  | brackets (inner braces : Nat)

namespace Depth

def start : Delimiter → Depth
  | .brace => braces 0
  | .bracket => brackets 0 0

/-- The kind of the innermost open group. -/
def kind : Depth → Delimiter
  | braces _ => .brace
  | brackets _ 0 => .bracket
  | brackets _ (_ + 1) => .brace

/-- The depth behind a character; none behind the delimiter that closes the group. -/
def step : Depth → Char → Option Depth
  | braces n, c =>
    if c = '{' then some (braces (n + 1))
    else if c = '}' then if n = 0 then none else some (braces (n - 1))
    else some (braces n)
  | brackets n b, c =>
    if c = '{' then some (brackets n (b + 1))
    else if c = '}' then some (brackets n (b - 1))
    else if b = 0 ∧ c = '[' then some (brackets (n + 1) b)
    else if b = 0 ∧ c = ']' then if n = 0 then none else some (brackets (n - 1) b)
    else some (brackets n b)

/-- The kind of the innermost open group and the depth around it; none if no inner group is open. -/
def outer? : Depth → Option (Delimiter × Depth)
  | braces 0 => none
  | braces (n + 1) => some (.brace, braces n)
  | brackets 0 0 => none
  | brackets (n + 1) 0 => some (.bracket, brackets n 0)
  | brackets n (b + 1) => some (.brace, brackets n b)

variable {quotes : Bool} {d : Delimiter} {p i : Depth} {c : Char}

theorem kind_start (d : Delimiter) : (start d).kind = d := by
  cases d <;> rfl

theorem outer?_start (d : Delimiter) : (start d).outer? = none := by
  cases d <;> rfl

theorem kind_of_outer? (h : i.outer? = some (d, p)) : i.kind = d := by
  match i, h with
  | braces (n + 1), rfl => rfl
  | brackets (n + 1) 0, rfl => rfl
  | brackets 0 (b + 1), rfl => rfl
  | brackets (n + 1) (b + 1), rfl => rfl

theorem kind_around_brackets (h : i.outer? = some (.bracket, p)) : p.kind = .bracket := by
  revert h
  fun_cases outer? i <;> simp +contextual [kind, eq_comm]

theorem step_opener (h : i.outer? = some (d, p)) : p.step d.opener = some i := by
  match i, h with
  | braces (n + 1), rfl => rfl
  | brackets (n + 1) 0, rfl => rfl
  | brackets 0 (b + 1), rfl => rfl
  | brackets (n + 1) (b + 1), rfl => rfl

theorem step_closer (h : i.outer? = some (d, p)) : i.step d.closer = some p := by
  match i, h with
  | braces (n + 1), rfl => rfl
  | brackets (n + 1) 0, rfl => rfl
  | brackets 0 (b + 1), rfl => rfl
  | brackets (n + 1) (b + 1), rfl => rfl

/-- Braces open a group everywhere. -/
theorem exists_inBraces (p : Depth) : ∃ i : Depth, i.outer? = some (.brace, p) := by
  cases p with
  | braces n => exact ⟨braces (n + 1), rfl⟩
  | brackets n b => exact ⟨brackets n (b + 1), by cases n <;> rfl⟩

/-- Brackets open a group where brackets count. -/
theorem exists_inBrackets (h : p.kind = .bracket) : ∃ i : Depth, i.outer? = some (.bracket, p) := by
  match p with
  | braces n => cases h
  | brackets n 0 => exact ⟨brackets (n + 1) 0, rfl⟩
  | brackets n (b + 1) => cases h

theorem step_ordinary (h : IsOrdinary quotes p.kind c) : p.step c = some p := by
  obtain ⟨-, hopen, -, hkind⟩ := h
  match p with
  | braces n => simp_all [step, kind]
  | brackets n 0 => simp_all [step, kind]
  | brackets n (b + 1) => simp_all [step, kind]

/-- What a character can be at a depth, outside quotes: an item of its own, the opener or the closer of an inner group, or
    the end of the group. -/
theorem step_cases (p : Depth) (hc : c ≠ '\\') (hquote : quotes = true → c ≠ '"') :
    IsOrdinary quotes p.kind c ∨ (∃ i d, outer? i = some (d, p) ∧ c = d.opener) ∨
      (∃ d o, p.outer? = some (d, o) ∧ c = d.closer) ∨ ∃ d, p = start d ∧ c = d.closer ∧ p.step c = none := by
  by_cases hopen : c = '{'
  · obtain ⟨i, hi⟩ := exists_inBraces p
    exact .inr (.inl ⟨i, .brace, hi, hopen⟩)
  cases hkind : p.kind with
  | brace =>
    by_cases hclose : c = '}'
    · match p with
      | braces 0 => exact .inr (.inr (.inr ⟨.brace, rfl, hclose, by simp [step, hclose]⟩))
      | braces (n + 1) => exact .inr (.inr (.inl ⟨.brace, braces n, rfl, hclose⟩))
      | brackets n (b + 1) => exact .inr (.inr (.inl ⟨.brace, brackets n b, by cases n <;> rfl, hclose⟩))
    · exact .inl ⟨hc, hopen, hquote, hclose⟩
  | bracket =>
    by_cases hinner : c = '['
    · obtain ⟨i, hi⟩ := exists_inBrackets hkind
      exact .inr (.inl ⟨i, .bracket, hi, hinner⟩)
    by_cases hclose : c = ']'
    · match p with
      | brackets 0 0 => exact .inr (.inr (.inr ⟨.bracket, rfl, hclose, by simp [step, hclose]⟩))
      | brackets (n + 1) 0 => exact .inr (.inr (.inl ⟨.bracket, brackets n 0, rfl, hclose⟩))
    · exact .inl ⟨hc, hopen, hquote, hinner, hclose⟩

end Depth

open Depth

/-! ## The readers by depth -/

/-- What is read from a depth on, up to the end of the group; `quoted` between two quotes. -/
def readOn (quotes : Bool) : Depth → (quoted : Bool) → Text → Option (Text × Text)
  | .braces n, quoted, s => braceRest quotes n quoted s
  | .brackets n b, quoted, s => bracketRest quotes n b quoted s

theorem inside?_eq_readOn (d : Delimiter) (quotes : Bool) (s : Text) :
    inside? d quotes s = readOn quotes (start d) false s := by
  cases d <;> rfl

section Reading

variable {quotes quoted : Bool} {p : Depth} {c : Char} {s : Text}

theorem readOn_nil : readOn quotes p quoted [] = none := by
  cases p <;> rfl

theorem readOn_last : readOn quotes p quoted ['\\'] = none := by
  cases p <;> rfl

theorem readOn_escape (c : Char) : readOn quotes p quoted ('\\' :: c :: s) = keep ['\\', c] (readOn quotes p quoted s) := by
  cases p <;> rfl

/-- Any other character is a quote, or between quotes, or for the depth to decide. -/
theorem readOn_cons (hc : c ≠ '\\') : readOn quotes p quoted (c :: s) =
    if quotes && c = '"' then keep [c] (readOn quotes p (!quoted) s)
    else if quoted then keep [c] (readOn quotes p quoted s)
    else match p.step c with
      | none => some ([], s)
      | some p => keep [c] (readOn quotes p quoted s) := by
  -- the readers match on the number of open groups only where one is closed, so it is split first
  cases p with
  | braces n =>
    cases n <;>
    · rw [readOn, braceRest.eq_def]
      split
      · simp_all
      · simp_all
      · simp_all
      · rename_i h
        obtain ⟨rfl, rfl⟩ := List.cons.inj h
        simp only [readOn, step]
        grind
  | brackets n b =>
    cases n <;>
    · rw [readOn, bracketRest.eq_def]
      split
      · simp_all
      · simp_all
      · simp_all
      · rename_i h
        obtain ⟨rfl, rfl⟩ := List.cons.inj h
        simp only [readOn, step]
        grind

theorem readOn_quote : readOn true p quoted ('"' :: s) = keep ['"'] (readOn true p (!quoted) s) := by
  rw [readOn_cons (by decide)]
  rfl

theorem readOn_quoted (hc : c ≠ '\\') (hquote : c ≠ '"') :
    readOn true p true (c :: s) = keep [c] (readOn true p true s) := by
  rw [readOn_cons hc, if_neg (by simpa using hquote), if_pos rfl]

/-- Outside quotes the depth decides. -/
theorem readOn_char (hc : c ≠ '\\') (hquote : quotes = true → c ≠ '"') : readOn quotes p false (c :: s) =
    match p.step c with
    | none => some ([], s)
    | some p => keep [c] (readOn quotes p false s) := by
  rw [readOn_cons hc, if_neg (by simpa using hquote), if_neg (by decide)]

end Reading

theorem bracketRest_step {c : Char} (hc : c ≠ '\\') (d n : Nat) (s : Text) : bracketRest false d n false (c :: s) =
    if c = '{' then keep [c] (bracketRest false d (n + 1) false s)
    else if c = '}' then keep [c] (bracketRest false d (n - 1) false s)
    else if n = 0 ∧ c = '[' then keep [c] (bracketRest false (d + 1) n false s)
    else if n = 0 ∧ c = ']' then if d = 0 then some ([], s) else keep [c] (bracketRest false (d - 1) n false s)
    else keep [c] (bracketRest false d n false s) := by
  have hread : readOn false (.brackets d n) false (c :: s) = _ := readOn_char hc (by simp)
  rw [readOn, Depth.step] at hread
  rw [hread]
  split_ifs <;> rfl

/-! ## Items are passed over -/

section Passing

variable {quotes : Bool} {s t : Text}

theorem Quotation.readOn_append (h : Quotation t) (p : Depth) (s : Text) :
    readOn true p true (t ++ s) = keep t (readOn true p true s) := by
  induction h with
  | nil => exact (keep_nil _).symm
  | escape c _ ih =>
    rw [List.cons_append, List.cons_append, readOn_escape, ih, keep_keep]
    rfl
  | char hc hquote _ ih =>
    rw [List.cons_append, readOn_quoted hc hquote, ih, keep_keep]
    rfl

/-- A reader that passes over what is inside a group and what follows passes over the group. -/
theorem readOn_group {d : Delimiter} {p i : Depth} {u : Text} (hi : i.outer? = some (d, p))
    (ht : ∀ s, readOn quotes i false (t ++ s) = keep t (readOn quotes i false s))
    (hs : readOn quotes p false (s ++ u) = keep s (readOn quotes p false u)) :
    readOn quotes p false (d.opener :: (t ++ d.closer :: s) ++ u) =
      keep (d.opener :: (t ++ d.closer :: s)) (readOn quotes p false u) := by
  have hopener (v : Text) : readOn quotes p false (d.opener :: v) = keep [d.opener] (readOn quotes i false v) := by
    rw [readOn_char (by cases d <;> decide) (fun _ => by cases d <;> decide), step_opener hi]
  have hcloser (v : Text) : readOn quotes i false (d.closer :: v) = keep [d.closer] (readOn quotes p false v) := by
    rw [readOn_char (by cases d <;> decide) (fun _ => by cases d <;> decide), step_closer hi]
  rw [List.cons_append, List.append_assoc, List.cons_append, hopener, ht, hcloser, hs, keep_keep, keep_keep, keep_keep]
  simp

/-- A reader passes over items of the innermost open group. -/
theorem Items.readOn_append {d : Delimiter} (h : Items quotes d t) {p : Depth} (hp : p.kind = d) (s : Text) :
    readOn quotes p false (t ++ s) = keep t (readOn quotes p false s) := by
  induction h generalizing p s with
  | nil => exact (keep_nil _).symm
  | escape c _ ih =>
    rw [List.cons_append, List.cons_append, readOn_escape, ih hp, keep_keep]
    rfl
  | char hc _ ih =>
    subst hp
    rw [List.cons_append, readOn_char hc.1 hc.2.2.1, step_ordinary hc]
    simp only
    rw [ih rfl, keep_keep]
    rfl
  | quotation hq ht _ ih =>
    subst hq
    rw [List.cons_append, List.append_assoc, List.cons_append, readOn_quote, Bool.not_false, ht.readOn_append, readOn_quote,
      Bool.not_true, ih hp, keep_keep, keep_keep, keep_keep]
    simp
  | braces _ _ iht ihs =>
    obtain ⟨i, hi⟩ := exists_inBraces p
    exact readOn_group hi (iht (kind_of_outer? hi)) (ihs hp s)
  | brackets _ _ iht ihs =>
    obtain ⟨i, hi⟩ := exists_inBrackets hp
    exact readOn_group hi (iht (kind_of_outer? hi)) (ihs hp s)

/-- A group is read whole, whatever stands behind it. -/
theorem Items.inside? {d : Delimiter} (h : Items quotes d t) (s : Text) :
    inside? d quotes (t ++ d.closer :: s) = some (t, s) := by
  have hend : (start d).step d.closer = none := by cases d <;> rfl
  rw [inside?_eq_readOn, h.readOn_append (kind_start d),
    readOn_char (by cases d <;> decide) (fun _ => by cases d <;> decide), hend]
  simp [keep]

end Passing

/-! ## What is read is items -/

/-- What stands up to the end of the group at a depth: for each open group the rest of its items and its closer. -/
inductive Rest (quotes : Bool) : Depth → Text → Prop
  | last {d : Delimiter} {t : Text} : Items quotes d t → Rest quotes (start d) t
  | inner {d : Delimiter} {p i : Depth} {t s : Text} : i.outer? = some (d, p) → Items quotes d t → Rest quotes p s →
      Rest quotes i (t ++ d.closer :: s)

namespace Rest

variable {quotes : Bool} {d : Delimiter} {p i : Depth} {s t : Text}

theorem items (h : Rest quotes (start d) t) : Items quotes d t := by
  generalize hp : start d = p at h
  cases h with
  | last ht =>
    have hd := congrArg kind hp
    rw [kind_start, kind_start] at hd
    rwa [hd]
  | inner ho =>
    rw [← hp, outer?_start] at ho
    cases ho

theorem of_inner (h : Rest quotes i s) (hi : i.outer? = some (d, p)) :
    ∃ t s', s = t ++ d.closer :: s' ∧ Items quotes d t ∧ Rest quotes p s' := by
  cases h with
  | last =>
    rw [outer?_start] at hi
    cases hi
  | inner ho ht hs =>
    rw [ho] at hi
    cases hi
    exact ⟨_, _, rfl, ht, hs⟩

/-- Another item in front. -/
theorem cons {u : Text} (hu : ∀ t, Items quotes p.kind t → Items quotes p.kind (u ++ t)) (h : Rest quotes p s) :
    Rest quotes p (u ++ s) := by
  cases h with
  | last ht =>
    rw [kind_start] at hu
    exact .last (hu _ ht)
  | inner hi ht hs =>
    rw [kind_of_outer? hi] at hu
    rw [← List.append_assoc]
    exact .inner hi (hu _ ht) hs

/-- A group opens in front of the rest of its items. -/
theorem opener (hi : i.outer? = some (d, p)) (h : Rest quotes i s) : Rest quotes p (d.opener :: s) := by
  obtain ⟨t, s', rfl, ht, hs⟩ := h.of_inner hi
  have hgroup : Rest quotes p (d.opener :: (t ++ [d.closer]) ++ s') := hs.cons fun u hu => by
    cases d with
    | brace => simpa [Delimiter.opener, Delimiter.closer] using Items.braces ht hu
    | bracket =>
      rw [kind_around_brackets hi] at hu ⊢
      simpa [Delimiter.opener, Delimiter.closer] using Items.brackets ht hu
  simpa using hgroup

theorem closer (hi : i.outer? = some (d, p)) (h : Rest quotes p s) : Rest quotes i (d.closer :: s) :=
  inner hi .nil h

end Rest

/-- What is read at a depth is the rest of the group; between quotes, behind the rest of the quotation. The two go together,
    since each quote leads from the one to the other. -/
theorem rest_of_readOn {quotes : Bool} (s : Text) : ∀ (p : Depth) (x r : Text),
    (readOn quotes p false s = some (x, r) → Rest quotes p x) ∧
    (quotes = true → readOn quotes p true s = some (x, r) →
      ∃ t y, x = t ++ '"' :: y ∧ Quotation t ∧ Rest quotes p y) := by
  induction s using Text.escapeInduct with
  | nil =>
    intro p x r
    simp [readOn_nil]
  | last =>
    intro p x r
    simp [readOn_last]
  | escape c s ih =>
    intro p x r
    refine ⟨fun h => ?_, fun hq h => ?_⟩
    · rw [readOn_escape] at h
      obtain ⟨y, hy, rfl⟩ := keep_eq_some h
      exact ((ih p y r).1 hy).cons fun _ => .escape c
    · rw [readOn_escape] at h
      obtain ⟨x', hx', rfl⟩ := keep_eq_some h
      obtain ⟨t, y, rfl, ht, hy⟩ := (ih p x' r).2 hq hx'
      exact ⟨'\\' :: c :: t, y, rfl, .escape c ht, hy⟩
  | char c s hc ih =>
    intro p x r
    refine ⟨fun h => ?_, fun hq h => ?_⟩
    · by_cases hquote : quotes = true ∧ c = '"'
      · obtain ⟨rfl, rfl⟩ := hquote
        rw [readOn_quote] at h
        obtain ⟨x', hx', rfl⟩ := keep_eq_some h
        obtain ⟨t, y, rfl, ht, hy⟩ := (ih p x' r).2 rfl hx'
        have hrest : Rest true p ('"' :: (t ++ ['"']) ++ y) := hy.cons fun u hu => by
          simpa using Items.quotation rfl ht hu
        simpa using hrest
      · rw [not_and] at hquote
        rw [readOn_char hc hquote] at h
        obtain hc | ⟨i, d, hi, rfl⟩ | ⟨d, o, ho, rfl⟩ | ⟨d, rfl, rfl, hend⟩ := step_cases p hc hquote
        · rw [step_ordinary hc] at h
          obtain ⟨y, hy, rfl⟩ := keep_eq_some h
          exact ((ih p y r).1 hy).cons fun _ => .char hc
        · rw [step_opener hi] at h
          obtain ⟨y, hy, rfl⟩ := keep_eq_some h
          exact ((ih i y r).1 hy).opener hi
        · rw [step_closer ho] at h
          obtain ⟨y, hy, rfl⟩ := keep_eq_some h
          exact ((ih o y r).1 hy).closer ho
        · rw [hend] at h
          cases h
          exact .last .nil
    · subst hq
      by_cases hquote : c = '"'
      · subst hquote
        rw [readOn_quote] at h
        obtain ⟨y, hy, rfl⟩ := keep_eq_some h
        exact ⟨[], y, rfl, .nil, (ih p y r).1 hy⟩
      · rw [readOn_quoted hc hquote] at h
        obtain ⟨x', hx', rfl⟩ := keep_eq_some h
        obtain ⟨t, y, rfl, ht, hy⟩ := (ih p x' r).2 rfl hx'
        exact ⟨c :: t, y, rfl, .char hc hquote ht, hy⟩

/-! ## Groups are read just as the grammar has them -/

theorem inside?_eq_some_iff {d : Delimiter} {quotes : Bool} {s t r : Text} :
    inside? d quotes s = some (t, r) ↔ Items quotes d t ∧ s = t ++ d.closer :: r := by
  constructor
  · intro h
    refine ⟨?_, inside?_eq h⟩
    rw [inside?_eq_readOn] at h
    exact ((rest_of_readOn s (start d) t r).1 h).items
  · rintro ⟨ht, rfl⟩
    exact ht.inside? r

end Group

open Group

namespace Span

variable {s : Text} {start : Nat} {quotes : Bool} {d : Delimiter}

theorem opened_eq (hd : s[start]? = some d.opener) : opened s start quotes =
    match inside? d quotes (s.drop (start + 1)) with
    | none => .error (.unclosed start)
    | some (content, after) => .ok ⟨content, start, s.length - after.length⟩ := by
  obtain ⟨hlt, hget⟩ := List.getElem?_eq_some_iff.1 hd
  rw [opened, List.drop_eq_getElem_cons hlt, hget]
  cases d <;> rfl

/-- The text from a place to another is a group just if behind its opener there are items and a closer that ends at the
    second place. -/
theorem isGroup_slice_iff (hd : s[start]? = some d.opener) (stop : Nat) :
    stop ≤ s.length ∧ IsGroup quotes d ((s.take stop).drop start) ↔
      ∃ t r, Items quotes d t ∧ s.drop (start + 1) = t ++ d.closer :: r ∧ stop = s.length - r.length := by
  obtain ⟨hlt, hget⟩ := List.getElem?_eq_some_iff.1 hd
  have hdrop : s.drop start = d.opener :: s.drop (start + 1) := by rw [List.drop_eq_getElem_cons hlt, hget]
  rw [List.drop_take]
  constructor
  · rintro ⟨hle, t, hslice, ht⟩
    have hlen := congrArg List.length hslice
    rw [List.length_take, List.length_drop, List.length_cons] at hlen
    have hsplit := List.take_append_drop (stop - start) (s.drop start)
    rw [hslice, hdrop] at hsplit
    refine ⟨t, (s.drop start).drop (stop - start), ht, ?_, ?_⟩
    · rw [hdrop]
      simpa using hsplit.symm
    · rw [List.length_drop, List.length_drop]
      omega
  · rintro ⟨t, r, ht, hrest, rfl⟩
    have hlen := congrArg List.length hrest
    rw [List.length_drop, List.length_append, List.length_cons] at hlen
    have hslice : s.drop start = d.opener :: (t ++ [d.closer]) ++ r := by
      rw [hdrop, hrest]
      simp
    refine ⟨Nat.sub_le _ _, t, ?_, ht⟩
    rw [hslice, List.take_left']
    rw [List.length_cons, List.length_append, List.length_singleton]
    omega

/-- The reader of groups accepts the groups of the grammar and no others: the place where a group ends is the only one up to
    which the text is a group, and a group is unclosed just if there is no such place. -/
theorem opened_iff (s : Text) (start : Nat) (quotes : Bool) (d : Delimiter) (hd : s[start]? = some d.opener) :
    (∀ stop, (opened s start quotes).map Span.stop = .ok stop ↔
      stop ≤ s.length ∧ IsGroup quotes d ((s.take stop).drop start)) ∧
    (opened s start quotes = .error (.unclosed start) ↔
      ¬ ∃ stop ≤ s.length, IsGroup quotes d ((s.take stop).drop start)) ∧
    ∀ stop ≤ s.length, ∀ stop' ≤ s.length, IsGroup quotes d ((s.take stop).drop start) →
      IsGroup quotes d ((s.take stop').drop start) → stop = stop' := by
  have hends (stop : Nat) : (opened s start quotes).map Span.stop = .ok stop ↔
      stop ≤ s.length ∧ IsGroup quotes d ((s.take stop).drop start) := by
    rw [isGroup_slice_iff hd, opened_eq hd]
    constructor
    · intro h
      cases hinside : inside? d quotes (s.drop (start + 1)) with
      | none =>
        rw [hinside] at h
        cases h
      | some p =>
        rw [hinside] at h
        cases h
        obtain ⟨ht, hrest⟩ := inside?_eq_some_iff.1 hinside
        exact ⟨p.1, p.2, ht, hrest, rfl⟩
    · rintro ⟨t, r, ht, hrest, rfl⟩
      rw [inside?_eq_some_iff.2 ⟨ht, hrest⟩]
      rfl
  refine ⟨hends, ?_, fun stop hle stop' hle' h h' => ?_⟩
  · have hunclosed : opened s start quotes = .error (.unclosed start) ↔
        ∀ stop, (opened s start quotes).map Span.stop ≠ .ok stop := by
      rw [opened_eq hd]
      cases inside? d quotes (s.drop (start + 1)) <;> simp [Except.map]
    rw [hunclosed]
    simp [hends]
  · have hstop := (hends stop).2 ⟨hle, h⟩
    rw [(hends stop').2 ⟨hle', h'⟩] at hstop
    cases hstop
    rfl

theorem opened_iff_options :
    let s : Text := "x[k=\x7b]\x7d,\"]\"\\],[v]] y]"
    s[1]? = some Delimiter.bracket.opener ∧ IsGroup true .bracket ((s.take 18).drop 1) ∧
      ∀ stop ≤ s.length, IsGroup true .bracket ((s.take stop).drop 1) → stop = 18 := by
  intro s
  have hopener : s[1]? = some Delimiter.bracket.opener := by decide
  obtain ⟨hends, -, hunique⟩ := opened_iff s 1 true .bracket hopener
  obtain ⟨hle, hgroup⟩ := (hends 18).1 (by decide)
  exact ⟨hopener, hgroup, fun stop hstop h => hunique stop hstop 18 hle h hgroup⟩

end Span

end Galley
