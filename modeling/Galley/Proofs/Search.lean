import Galley.Proofs.Row
/-!
# Searching rows

A reader of markers finds them exactly where a row has them (`Finds.cut_source`). So finding and
closing an environment in a row's text is finding and closing it in the row: `find_source`,
`leaf?_source`. What takes the environment's place cuts the row's marks (`Row.Holds.replaceBy`).
-/

namespace Galley

open Mark

/-! ## Readers of marks -/

/-- The reader finds marks, `f` says which and with what value, and nothing else. -/
structure Finds {α : Type} (read : Reader α) (f : Mark → Option α) : Prop where
  mark : ∀ before m s, isPlainName m.name = true → read before (m.source ++ s) = (f m).map (·, s)
  char : ∀ before c s, c ≠ '\\' → read before (c :: s) = none

namespace Row

/-- The pieces of a row for a reader of marks. -/
def pieces {α : Type} (f : Mark → Option α) : Row → List (Piece α)
  | [] => []
  | .char c _ :: d => .char c :: pieces f d
  | .mark m _ :: d =>
    (match f m with
      | some a => [.hit a m.source]
      | none => m.source.map .char) ++ pieces f d

end Row

namespace Finds

variable {α : Type} {read : Reader α} {f : Mark → Option α}

theorem cutFrom_source (h : Finds read f) (d : Row) (before : Option Char) :
    Text.cutFrom read 0 before d.source = d.pieces f := by
  induction d generalizing before with
  | nil => rfl
  | cons i d ih =>
    cases i with
    | char c hc =>
      have hs : c ≠ '\\' := fun he => by rw [he] at hc; cases hc
      simp only [Row.source_cons, Item.source, List.singleton_append, Text.cutFrom, h.char before c _ hs, ih,
        Row.pieces]
    | mark m hm =>
      have hr := h.mark before m (Row.source d) hm
      have ht := Mark.not_mem_tail hm (c := '\\') (by decide) (by decide) (by decide)
      simp only [Row.source_cons, Item.source, Row.pieces]
      rw [m.source_eq] at hr ⊢
      generalize m.head ++ m.name ++ ['}'] = t at hr ht
      rw [List.cons_append] at hr ⊢
      cases hf : f m with
      | none =>
        rw [hf, Option.map_none] at hr
        obtain ⟨b, hb⟩ := Text.cutFrom_append (fun c hc before s => h.char before c s fun he => ht (he ▸ hc))
          (Row.source d) (some '\\')
        simp only [Text.cutFrom, hr, hb, ih, List.map_cons, List.cons_append]
      | some a =>
        rw [hf, Option.map_some] at hr
        obtain ⟨b, hb⟩ := Text.cutFrom_hit hr
        rw [List.cons_append, hb, ih]
        rfl

theorem cut_source (h : Finds read f) (d : Row) : Text.cut read d.source = d.pieces f := h.cutFrom_source d none

theorem findFrom_append (h : Finds read f) {t : Text} (ht : '\\' ∉ t) (s : Text) (before : Option Char) :
    ∃ b, Text.findFrom read before (t ++ s) =
      (Text.findFrom read b s).map fun r => { r with before := t ++ r.before } := by
  induction t generalizing before with
  | nil => exact ⟨before, by simp⟩
  | cons c t ih =>
    simp only [List.mem_cons, not_or] at ht
    obtain ⟨b, hb⟩ := ih ht.2 (some c)
    refine ⟨b, ?_⟩
    simp only [List.cons_append, Text.findFrom, h.char before c _ (Ne.symm ht.1), hb, Option.map_map]
    rfl

/-- The first mark with a value is found, with the row around it. -/
theorem findFrom_source (h : Finds read f) (d : Row) (before : Option Char) :
    (Text.findFrom read before (Row.source d) = none ∧ ∀ m ∈ Row.marks d, f m = none) ∨
    ∃ p m hm q a, d = p ++ Item.mark m hm :: q ∧ f m = some a ∧ (∀ x ∈ Row.marks p, f x = none) ∧
      Text.findFrom read before (Row.source d) = some ⟨Row.source p, a, m.source, Row.source q⟩ := by
  induction d generalizing before with
  | nil => exact .inl ⟨rfl, by simp⟩
  | cons i d ih =>
    cases i with
    | char c hc =>
      have hs : c ≠ '\\' := fun he => by rw [he] at hc; cases hc
      have step : Text.findFrom read before (Row.source (.char c hc :: d)) =
          (Text.findFrom read (some c) (Row.source d)).map fun r => { r with before := c :: r.before } := by
        simp only [Row.source_cons, Item.source, List.singleton_append, Text.findFrom, h.char before c _ hs]
      rw [step]
      rcases ih (some c) with ⟨hn, hall⟩ | ⟨p, m, hm, q, a, rfl, ha, hp, hf⟩
      · exact .inl ⟨by rw [hn]; rfl, hall⟩
      · exact .inr ⟨.char c hc :: p, m, hm, q, a, rfl, ha, hp, by rw [hf]; rfl⟩
    | mark m hm =>
      have hr := h.mark before m (Row.source d) hm
      have ht := Mark.not_mem_tail hm (c := '\\') (by decide) (by decide) (by decide)
      have hsource := m.source_eq
      generalize m.head ++ m.name ++ ['}'] = t at hsource ht
      cases hf : f m with
      | some a =>
        refine .inr ⟨[], m, hm, d, a, rfl, hf, by simp, ?_⟩
        rw [hf, Option.map_some, hsource, List.cons_append] at hr
        simp only [Row.source_cons, Item.source, hsource, List.cons_append, Text.findFrom, hr, Row.source_nil]
        rw [← List.cons_append, Text.upTo_append_rest]
      | none =>
        rw [hf, Option.map_none, hsource, List.cons_append] at hr
        obtain ⟨b, hb⟩ := h.findFrom_append ht (Row.source d) (some '\\')
        have step : Text.findFrom read before (Row.source (.mark m hm :: d)) =
            (Text.findFrom read b (Row.source d)).map fun r => { r with before := m.source ++ r.before } := by
          simp only [Row.source_cons, Item.source, hsource, List.cons_append, Text.findFrom, hr, hb,
            Option.map_map]
          rfl
        rw [step]
        rcases ih b with ⟨hn, hall⟩ | ⟨p, x, hx, q, a, rfl, ha, hp, hfind⟩
        · exact .inl ⟨by rw [hn]; rfl, List.forall_mem_cons.2 ⟨hf, hall⟩⟩
        · exact .inr ⟨.mark m hm :: p, x, hx, q, a, rfl, ha, List.forall_mem_cons.2 ⟨hf, hp⟩, by rw [hfind]; rfl⟩

theorem find?_source (h : Finds read f) (d : Row) :
    (Text.find? read (Row.source d) = none ∧ ∀ m ∈ Row.marks d, f m = none) ∨
    ∃ p m hm q a, d = p ++ Item.mark m hm :: q ∧ f m = some a ∧ (∀ x ∈ Row.marks p, f x = none) ∧
      Text.find? read (Row.source d) = some ⟨Row.source p, a, m.source, Row.source q⟩ := h.findFrom_source d none

end Finds

/-! ## Markers of environments -/

namespace Marker

/-- A braced name is read up to its brace. -/
theorem after?_braced {name n : Text} (hname : '}' ∉ name) (hn : '}' ∉ n) (s : Text) :
    (Text.after? name (n ++ '}' :: s)).bind (Text.after? "\x7d") = if n = name then some s else none := by
  induction name generalizing n with
  | nil =>
    cases n with
    | nil => simp [Text.after?]
    | cons c n =>
      simp only [List.mem_cons, not_or] at hn
      simp [Text.after?, hn.1]
  | cons a name ih =>
    simp only [List.mem_cons, not_or] at hname
    cases n with
    | nil => simp [Text.after?, Ne.symm hname.1]
    | cons c n =>
      simp only [List.mem_cons, not_or] at hn
      by_cases hc : a = c
      · simpa [Text.after?, hc] using ih hname.2 hn.2
      · simp [Text.after?, hc, Ne.symm hc]

theorem after?_begin {name : Text} {m : Mark} (hm : isPlainName m.name = true) (hname : '}' ∉ name) (s : Text) :
    after? "begin" name (m.source ++ s) = if m = .opening name then some s else none := by
  cases m with
  | closing n =>
    have hword (t : Text) : Text.after? ('\\' :: "begin".toList) ("\\end\x7b".toList ++ t) = none := rfl
    simp only [after?, Mark.source_closing, List.append_assoc, hword, Option.bind_eq_bind, Option.bind_none]
    rw [if_neg (by simp)]
  | opening n =>
    have hword (t : Text) : Text.after? ('\\' :: "begin".toList) ("\\begin\x7b".toList ++ t) = some ('{' :: t) := rfl
    have hblank (t : Text) : List.dropWhile isBlank ('{' :: t) = '{' :: t := rfl
    have hbrace (t : Text) : Text.after? "\x7b" ('{' :: t) = some t := rfl
    simp only [after?, Mark.source_opening, List.append_assoc, hword, Option.bind_eq_bind, Option.bind_some, hblank,
      hbrace, Mark.opening.injEq]
    exact after?_braced hname (not_mem_of_isPlainName hm (c := '}') (by decide)) s

theorem after?_end {name : Text} {m : Mark} (hm : isPlainName m.name = true) (hname : '}' ∉ name) (s : Text) :
    after? "end" name (m.source ++ s) = if m = .closing name then some s else none := by
  cases m with
  | opening n =>
    have hword (t : Text) : Text.after? ('\\' :: "end".toList) ("\\begin\x7b".toList ++ t) = none := rfl
    simp only [after?, Mark.source_opening, List.append_assoc, hword, Option.bind_eq_bind, Option.bind_none]
    rw [if_neg (by simp)]
  | closing n =>
    have hword (t : Text) : Text.after? ('\\' :: "end".toList) ("\\end\x7b".toList ++ t) = some ('{' :: t) := rfl
    have hblank (t : Text) : List.dropWhile isBlank ('{' :: t) = '{' :: t := rfl
    have hbrace (t : Text) : Text.after? "\x7b" ('{' :: t) = some t := rfl
    simp only [after?, Mark.source_closing, List.append_assoc, hword, Option.bind_eq_bind, Option.bind_some, hblank,
      hbrace, Mark.closing.injEq]
    exact after?_braced hname (not_mem_of_isPlainName hm (c := '}') (by decide)) s

theorem after?_of_ne {word name : Text} {c : Char} (hc : c ≠ '\\') (s : Text) : after? word name (c :: s) = none := by
  simp [after?, Text.after?, Ne.symm hc]

theorem finds_begins {name : Text} (hname : '}' ∉ name) :
    Finds (begins name) fun m => if m = .opening name then some () else none where
  mark before m s hm := by
    rw [begins, after?_begin hm hname]
    split <;> rfl
  char before c s hc := by rw [begins, after?_of_ne hc]; rfl

theorem finds_ends {name : Text} (hname : '}' ∉ name) :
    Finds (ends name) fun m => if m = .closing name then some () else none where
  mark before m s hm := by
    rw [ends, after?_end hm hname]
    split <;> rfl
  char before c s hc := by rw [ends, after?_of_ne hc]; rfl

/-- The sense in which `either` reads a mark. -/
def sense? (name : Text) (m : Mark) : Option Bool :=
  if m = .opening name then some true else if m = .closing name then some false else none

theorem finds_either {name : Text} (hname : '}' ∉ name) : Finds (either name) (sense? name) where
  mark before m s hm := by
    simp only [either, after?_begin hm hname, after?_end hm hname, sense?]
    split
    · rename_i heq
      split at heq <;> simp_all
    · rename_i heq
      split at heq
      · cases heq
      · split <;> simp_all
  char before c s hc := by simp only [either, after?_of_ne hc, Option.map_none]

theorem finds_beginsAny {names : List Text} (hnames : ∀ name ∈ names, '}' ∉ name) :
    Finds (beginsAny names) fun m => names.findSome? fun name => if m = .opening name then some name else none where
  mark before m s hm := by
    simp only [beginsAny]
    induction names with
    | nil => rfl
    | cons name names ih =>
      simp only [List.findSome?_cons, after?_begin hm (hnames name (by simp))]
      by_cases h : m = .opening name
      · simp [h]
      · simpa [h] using ih fun n hn => hnames n (by simp [hn])
  char before c s hc := by
    simp only [beginsAny, after?_of_ne hc, Option.map_none]
    exact List.findSome?_eq_none_iff.2 fun _ _ => rfl

end Marker

/-! ## Closing an environment -/

namespace Row

theorem sources_pieces {α : Type} (f : Mark → Option α) (d : Row) : Piece.sources (pieces f d) = source d := by
  have chars (t : Text) : Piece.sources (t.map (Piece.char (α := α))) = t := by
    rw [Piece.sources, List.flatMap_map]
    exact List.flatMap_singleton' t
  induction d with
  | nil => rfl
  | cons i d ih =>
    cases i with
    | char c hc => exact congrArg (c :: ·) ih
    | mark m hm =>
      simp only [pieces, source_cons, Item.source, Piece.sources, List.flatMap_append] at ih ⊢
      rw [ih]
      congr 1
      cases f m with
      | none => exact chars m.source
      | some a => exact List.append_nil m.source

theorem close_map_char (k : Nat) (t : Text) (ps : List (Piece Bool)) :
    Environment.close k (t.map .char ++ ps) = (Environment.close k ps).map fun (b, r) => (t ++ b, r) := by
  induction t with
  | nil => simp
  | cons c t ih =>
    simp only [List.map_cons, List.cons_append, Environment.close, ih, Option.map_map]
    rfl

/-- An environment is closed where its marks close it. -/
theorem close_source (name : Text) (d : Row) (k : Nat) :
    (Environment.close k (pieces (Marker.sense? name) d) = none ∧ ∃ e, depth name k (marks d) = some e) ∨
    ∃ b hc q, d = b ++ Item.mark (.closing name) hc :: q ∧ depth name k (marks b) = some 0 ∧
      Environment.close k (pieces (Marker.sense? name) d) =
        some (source b, (Mark.closing name).source, source q) := by
  induction d generalizing k with
  | nil => exact .inl ⟨by cases k <;> rfl, k, rfl⟩
  | cons i d ih =>
    cases i with
    | char c hc =>
      rcases ih k with ⟨hn, hd⟩ | ⟨b, h, q, rfl, hd, hq⟩
      · exact .inl ⟨by simp only [pieces, Environment.close, hn, Option.map_none], hd⟩
      · exact .inr ⟨.char c hc :: b, h, q, rfl, hd, by
          simp only [pieces, Environment.close, hq, Option.map_some]; rfl⟩
    | mark m hm =>
      by_cases ho : m = .opening name
      · subst ho
        have hp : pieces (Marker.sense? name) (.mark (.opening name) hm :: d) =
            .hit true (Mark.opening name).source :: pieces (Marker.sense? name) d := by
          simp only [pieces, Marker.sense?, if_true, List.singleton_append]
        rcases ih (k + 1) with ⟨hn, e, hd⟩ | ⟨b, h, q, rfl, hd, hq⟩
        · exact .inl ⟨by simp only [hp, Environment.close, hn, Option.map_none], e, by
            simpa [depth] using hd⟩
        · exact .inr ⟨.mark (.opening name) hm :: b, h, q, rfl, by simpa [depth] using hd, by
            rw [hp]; simp only [Environment.close, hq, Option.map_some]; rfl⟩
      · by_cases hc : m = .closing name
        · subst hc
          have hp : pieces (Marker.sense? name) (.mark (.closing name) hm :: d) =
              .hit false (Mark.closing name).source :: pieces (Marker.sense? name) d := by
            simp only [pieces, Marker.sense?, ho, if_false, if_true, List.singleton_append]
          cases k with
          | zero => exact .inr ⟨[], hm, d, rfl, rfl, by rw [hp, Environment.close, sources_pieces]; rfl⟩
          | succ k =>
            rcases ih k with ⟨hn, e, hd⟩ | ⟨b, h, q, rfl, hd, hq⟩
            · exact .inl ⟨by simp only [hp, Environment.close, hn, Option.map_none], e, by
                rw [marks_mark, depth_closing_self]; exact hd⟩
            · exact .inr ⟨.mark (.closing name) hm :: b, h, q, rfl, by
                rw [marks_mark, depth_closing_self]; exact hd, by
                rw [hp]; simp only [Environment.close, hq, Option.map_some]; rfl⟩
        · have hp : pieces (Marker.sense? name) (.mark m hm :: d) =
              m.source.map .char ++ pieces (Marker.sense? name) d := by
            simp only [pieces, Marker.sense?, ho, hc, if_false]
          have hdepth (ms : List Mark) : depth name k (m :: ms) = depth name k ms := by
            cases m with
            | opening n => simp only [depth, if_neg fun h : n = name => ho (by rw [h])]
            | closing n => exact depth_closing_ne (fun h => hc (by rw [h])) k ms
          rcases ih k with ⟨hn, e, hd⟩ | ⟨b, h, q, rfl, hd, hq⟩
          · exact .inl ⟨by rw [hp, close_map_char, hn, Option.map_none], e, by rw [marks_mark, hdepth, hd]⟩
          · exact .inr ⟨.mark m hm :: b, h, q, rfl, by rw [marks_mark, hdepth, hd], by
              rw [hp, close_map_char, hq]; rfl⟩

/-! ## Environments in a row -/

/-- `e` is an environment of the row: its end marker is the one that matches its begin marker. -/
def Holds (d : Row) (e : Environment) : Prop :=
  ∃ p ho b hc q, d = p ++ Item.mark (.opening e.name) ho :: (b ++ Item.mark (.closing e.name) hc :: q) ∧
    depth e.name 0 (marks b) = some 0 ∧ e.before = source p ∧ e.body = source b ∧ e.after = source q

namespace Holds

variable {d : Row} {e : Environment}

theorem calm_body (h : d.Holds e) : Calm e.body := by
  obtain ⟨p, ho, b, hc, q, -, -, -, hb, -⟩ := h
  rw [hb]
  exact Row.calm b

/-- What takes the place of an environment leaves the row without its marks. -/
theorem replaceBy (h : d.Holds e) {taken : Text → Bool} (hn : taken e.name = true) {t : Text}
    (ht : ∀ c ∈ t, isPlainChar c = true) :
    ∃ d' : Row, e.replaceBy t = d'.source ∧ Cuts taken d.marks d'.marks := by
  obtain ⟨p, ho, b, hc, q, rfl, hd, hp, -, hq⟩ := h
  refine ⟨p ++ ofText t ht ++ q, by simp [Environment.replaceBy, hp, hq], ?_⟩
  have hcut := (@Cuts.refl taken (marks (p ++ Item.mark (.opening e.name) ho ::
    (b ++ Item.mark (.closing e.name) hc :: q))))
  simp only [marks_append, marks_mark, marks_ofText, List.append_nil] at hcut ⊢
  exact hcut.cut hn hd

end Holds

variable {k : Nat} {names : List Text} {name : Text}

/-- In a nested row every environment that begins is closed. -/
theorem at?_source (hname : '}' ∉ name) (p q : Row) (ho : isPlainName (Mark.opening name).name = true)
    (hd : Nested k (marks (Item.mark (.opening name) ho :: q))) :
    ∃ e, Environment.at? name (source p) ((Mark.opening name).source ++ source q) = some e ∧
      Holds (p ++ Item.mark (.opening name) ho :: q) e ∧ e.name = name := by
  have hb := Marker.after?_begin ho hname (source q)
  rw [if_pos rfl] at hb
  rw [marks_mark] at hd
  simp only [Environment.at?, hb, (Marker.finds_either hname).cut_source]
  rcases close_source name q 0 with ⟨-, e, he⟩ | ⟨b, hc, r, rfl, hz, hclose⟩
  · simp [hd.depth_rest_eq_none] at he
  · rw [hclose]
    exact ⟨_, rfl, ⟨p, ho, b, hc, r, rfl, hz, rfl, rfl, rfl⟩, rfl⟩

/-- Searching a nested row for an environment finds one or none. -/
theorem find_source (hname : '}' ∉ name) (d : Row) (hd : Nested k (marks d)) :
    (Environment.find name (source d) = .ok none ∧ Mark.opening name ∉ marks d) ∨
    ∃ e, Environment.find name (source d) = .ok (some e) ∧ Holds d e ∧ e.name = name := by
  rcases (Marker.finds_begins hname).find?_source d with ⟨hn, hall⟩ | ⟨p, m, ho, q, a, rfl, ha, -, hf⟩
  · refine .inl ⟨by rw [Environment.find, hn], fun hm => ?_⟩
    simpa using hall _ hm
  · refine .inr ?_
    obtain rfl : m = .opening name := by
      split at ha
      · assumption
      · cases ha
    obtain ⟨j, hj⟩ := hd.suffix (a := marks p) (b := .opening name :: marks q) (by simp)
    simp only [Environment.find, hf, (Marker.finds_either hname).cut_source]
    rcases close_source name q 0 with ⟨-, e, he⟩ | ⟨b, hc, r, rfl, hz, hclose⟩
    · simp [hj.depth_rest_eq_none] at he
    · rw [hclose]
      exact ⟨_, rfl, ⟨p, ho, b, hc, r, rfl, hz, rfl, rfl, rfl⟩, rfl⟩

theorem leafFrom_map_char (names before : List Text) (t : Text) (ps : List (Piece Text)) :
    ∃ bs : List Text, Environment.leafFrom names before (t.map .char ++ ps) = Environment.leafFrom names bs ps ∧
      bs.reverse.flatten = before.reverse.flatten ++ t := by
  induction t generalizing before with
  | nil => exact ⟨before, by simp⟩
  | cons c t ih =>
    obtain ⟨bs, h, hbs⟩ := ih ([c] :: before)
    exact ⟨bs, h, by simp [hbs]⟩

/-- The leaf of a row is one of its environments. -/
theorem leafFrom_source (hnames : ∀ name ∈ names, '}' ∉ name) {q : Row} {before : List Text} {p : Row}
    (hp : before.reverse.flatten = source p) (hd : Nested k (marks q)) {e : Environment}
    (he : Environment.leafFrom names before
      (pieces (fun m => names.findSome? fun name => if m = .opening name then some name else none) q) = some e) :
    Holds (p ++ q) e ∧ e.name ∈ names := by
  induction q generalizing before p k with
  | nil => simp [pieces, Environment.leafFrom] at he
  | cons i q ih =>
    cases i with
    | char c hc =>
      have := @ih k ([c] :: before) (p ++ [.char c hc]) (by simp [hp, Item.source]) hd he
      simpa using this
    | mark m hm =>
      obtain ⟨j, hj⟩ := hd.suffix (a := [m]) (b := marks q) rfl
      have next {bs : List Text} (hbs : bs.reverse.flatten = source p ++ m.source)
          (he : Environment.leafFrom names bs (pieces (fun m => names.findSome? fun name =>
            if m = .opening name then some name else none) q) = some e) :
          Holds (p ++ Item.mark m hm :: q) e ∧ e.name ∈ names := by
        have := @ih j bs (p ++ [.mark m hm]) (by simp [hbs, Item.source]) hj he
        simpa using this
      simp only [pieces] at he
      cases hf : names.findSome? fun name => if m = .opening name then some name else none with
      | none =>
        rw [hf] at he
        obtain ⟨bs, hs, hbs⟩ := leafFrom_map_char names before m.source (pieces _ q)
        rw [hs] at he
        exact next (by rw [hbs, hp]) he
      | some name =>
        obtain ⟨x, hx, hm'⟩ := List.exists_of_findSome?_eq_some hf
        split at hm'
        · rename_i heq
          obtain rfl := Option.some.inj hm'
          subst heq
          obtain ⟨f, hat, hholds, hname⟩ := at?_source (hnames x hx) p q hm hd
          rw [hf] at he
          simp only [List.singleton_append, Environment.leafFrom, sources_pieces, hp, hat] at he
          split at he
          · exact next (by simp [hp]) he
          · obtain rfl := Option.some.inj he
            exact ⟨hholds, by rw [hname]; exact hx⟩
        · cases hm'

theorem leaf?_source (hne : names ≠ []) (hnames : ∀ name ∈ names, '}' ∉ name) {d : Row}
    (hd : Nested k (marks d)) {e : Environment} (he : Environment.leaf? names (source d) = some e) :
    Holds d e ∧ e.name ∈ names := by
  have hempty : names.isEmpty = false := by cases names <;> simp_all
  simp only [Environment.leaf?, hempty, Bool.false_eq_true, if_false, (Marker.finds_beginsAny hnames).cut_source] at he
  exact leafFrom_source hnames (p := []) rfl hd he

theorem firstName?_mem {s : Text} (h : Environment.firstName? names s = some name) : name ∈ names := by
  obtain ⟨best, hb, rfl⟩ := Option.map_eq_some_iff.1 h
  clear h
  revert best hb
  refine List.foldlRecOn (motive := fun best : Option (Nat × Text) => ∀ b, best = some b → b.2 ∈ names) _ _ ?_ ?_
  · intro b hb
    cases hb
  intro best hbest n hn b hb
  split at hb
  · exact hbest b hb
  · cases hb
    exact hn
  · split at hb
    · cases hb
      exact hn
    · exact hbest b hb

end Row

end Galley
