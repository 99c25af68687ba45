import Galley.Surface
import Galley.Proofs.Parts
import Galley.Proofs.Tokens
import Mathlib.Data.List.DropRight
import Mathlib.Data.List.Nodup
/-!
# Reading back a style

Declarations that a style attribute was read into, and properties set among them, are what printing and
reading give back (`read_print`). So setting the same properties twice is setting them once (`set_set`).
-/

namespace Galley

open Html (Node)

/-! ## Text without white space around it -/

namespace Text

/-- There is no white space at either end. -/
structure Stripped (s : Text) : Prop where
  first : ∀ c ∈ s.head?, isBlank c = false
  last : ∀ c ∈ s.getLast?, isBlank c = false

theorem Stripped.of_forall {s : Text} (h : ∀ c ∈ s, isBlank c = false) : Stripped s :=
  ⟨fun c hc => h c (List.mem_of_mem_head? hc), fun c hc => h c (List.mem_of_getLast? hc)⟩

theorem Stripped.of_ends {s : Text} {a b : Char} (ha : s.head? = some a) (hb : s.getLast? = some b)
    (h : isBlank a = false ∧ isBlank b = false) : Stripped s := by
  refine ⟨fun c hc => ?_, fun c hc => ?_⟩
  · rw [ha] at hc
    exact Option.some.inj hc ▸ h.1
  · rw [hb] at hc
    exact Option.some.inj hc ▸ h.2

theorem Stripped.strip_eq {s : Text} (h : Stripped s) : strip s = s := by
  have hfirst : s.dropWhile isBlank = s := by
    cases s with
    | nil => rfl
    | cons c s => simp [h.first c rfl]
  rw [strip, hfirst]
  refine List.rdropWhile_eq_self_iff.2 fun hne => ?_
  simp [h.last _ (List.getLast?_eq_some_getLast hne)]

theorem Stripped.append {a w : Text} (ha : Stripped a) (hne : a ≠ []) (hw : ∀ c ∈ w, isBlank c = false) :
    Stripped (a ++ w) := by
  constructor
  · rw [List.head?_append_of_ne_nil a hne]
    exact ha.first
  · intro c hc
    rw [List.getLast?_append] at hc
    cases hlast : w.getLast? with
    | none => exact ha.last c (by simpa [hlast] using hc)
    | some d =>
      obtain rfl : d = c := by simpa [hlast] using hc
      exact hw d (List.mem_of_getLast? hlast)

theorem stripped_strip (s : Text) : Stripped (strip s) := by
  constructor
  · intro c hc
    obtain ⟨t, ht⟩ : strip s <+: s.dropWhile isBlank := prefix_of_dropWhileRight isBlank _
    have hhead : c ∈ (s.dropWhile isBlank).head? := by
      cases hs : strip s with
      | nil => simp [hs] at hc
      | cons d u =>
        rw [hs] at hc ht
        rw [← ht]
        exact hc
    have := List.head?_dropWhile_not isBlank s
    rw [Option.mem_def.1 hhead] at this
    simpa using this
  · intro c hc
    by_cases hne : strip s = []
    · simp [hne] at hc
    · rw [List.getLast?_eq_some_getLast hne] at hc
      obtain rfl := Option.some.inj hc
      have hlast : ¬isBlank ((strip s).getLast hne) = true := List.rdropWhile_last_not isBlank (s.dropWhile isBlank) hne
      simpa using hlast

theorem strip_cons_of_isBlank {c : Char} (h : isBlank c = true) (s : Text) : strip (c :: s) = strip s := by
  rw [strip, strip, List.dropWhile_cons_of_pos h]

theorem strip_append_of_isBlank {c : Char} (h : isBlank c = true) (s : Text) : strip (s ++ [c]) = strip s := by
  rw [strip, strip, List.dropWhile_append]
  split
  · rename_i he
    rw [List.isEmpty_iff.1 he, List.dropWhile_cons_of_pos h]
    rfl
  · simp [dropWhileRight, h]

/-- White space around a text is stripped with that of the text. -/
theorem strip_enclosed {a b : Text} (ha : ∀ c ∈ a, isBlank c = true) (hb : ∀ c ∈ b, isBlank c = true) (s : Text) :
    strip (a ++ (s ++ b)) = strip s := by
  have hbehind : strip (s ++ b) = strip s := by
    induction b using List.reverseRecOn with
    | nil => rw [List.append_nil]
    | append_singleton b c ih =>
      obtain ⟨hb, hc⟩ := List.forall_mem_append.1 hb
      rw [← List.append_assoc, strip_append_of_isBlank (hc c List.mem_cons_self), ih hb]
  induction a with
  | nil => exact hbehind
  | cons c a ih =>
    obtain ⟨hc, ha⟩ := List.forall_mem_cons.1 ha
    rw [List.cons_append, strip_cons_of_isBlank hc, ih ha]

theorem splitOnChar_append {sep : Char} {a : Text} (ha : sep ∉ a) (b : Text) :
    splitOnChar sep (a ++ sep :: b) = a :: splitOnChar sep b := by
  induction a with
  | nil => simp [splitOnChar]
  | cons c a ih =>
    obtain ⟨hc, ha⟩ := not_or.1 (mt List.mem_cons.2 ha)
    simp [splitOnChar, Ne.symm hc, ih ha]

theorem not_mem_of_mem_splitOnChar {sep : Char} {s part : Text} (h : part ∈ splitOnChar sep s) : sep ∉ part := by
  induction s generalizing part with
  | nil => simp_all [splitOnChar]
  | cons c s ih =>
    unfold splitOnChar at h
    split at h
    · rcases List.mem_cons.1 h with rfl | h
      · exact List.not_mem_nil
      · exact ih h
    · rename_i hc
      split at h
      · rw [List.mem_singleton.1 h]
        simpa using Ne.symm hc
      · rename_i first parts hparts
        rcases List.mem_cons.1 h with rfl | h
        · exact mt List.mem_cons.1 (not_or.2 ⟨Ne.symm hc, ih (by rw [hparts]; exact List.mem_cons_self)⟩)
        · exact ih (by rw [hparts]; exact List.mem_cons_of_mem first h)

end Text

/-! ## Numbers -/

/-- A number with fixed places is written in digits, a point and a sign, or named. -/
theorem Decimal.mem_fixed {places : Nat} {x : Float} {c : Char} (h : c ∈ Decimal.fixed places x) :
    c.isDigit = true ∨ c ∈ ['-', '.', 'n', 'a', 'i', 'f'] := by
  have hsign (b : Bool) (h : c ∈ Decimal.sign b) : c ∈ ['-', '.', 'n', 'a', 'i', 'f'] := by
    cases b with
    | false => cases h
    | true => exact (by decide : ∀ c ∈ ("-".toList : Text), c ∈ ['-', '.', 'n', 'a', 'i', 'f']) c h
  have hpadded {width n : Nat} (h : c ∈ Text.ofNatPadded width n) : c.isDigit = true := by
    unfold Text.ofNatPadded at h
    rcases List.mem_append.1 h with h | h
    · rw [List.eq_of_mem_replicate h]
      rfl
    · exact Text.isDigit_of_mem_ofNat h
  have hpoint {value : Nat} (h : c ∈ Decimal.withPoint value places) :
      c.isDigit = true ∨ c ∈ ['-', '.', 'n', 'a', 'i', 'f'] := by
    unfold Decimal.withPoint at h
    split at h
    · exact .inl (Text.isDigit_of_mem_ofNat h)
    · rcases List.mem_append.1 h with h | h
      · rcases List.mem_append.1 h with h | h
        · exact .inl (hpadded (List.mem_of_mem_take h))
        · rw [List.mem_singleton.1 h]
          decide
      · exact .inl (hpadded (List.mem_of_mem_drop h))
  unfold Decimal.fixed at h
  split at h
  · exact .inr ((by decide : ∀ c ∈ ("nan".toList : Text), c ∈ ['-', '.', 'n', 'a', 'i', 'f']) c h)
  · rcases List.mem_append.1 h with h | h
    · exact .inr (hsign _ h)
    · exact .inr ((by decide : ∀ c ∈ ("inf".toList : Text), c ∈ ['-', '.', 'n', 'a', 'i', 'f']) c h)
  · rcases List.mem_append.1 h with h | h
    · exact .inr (hsign _ h)
    · exact hpoint h

/-! ## Declarations -/

namespace Style

/-- A property and a value that printing does not lose. -/
structure IsDeclaration (d : Text × Text) : Prop where
  named : d.1 ≠ []
  name : Text.Stripped d.1
  value : Text.Stripped d.2
  noColon : ':' ∉ d.1
  noSemicolon : ';' ∉ d.1 ∧ ';' ∉ d.2

/-- Each property once. -/
structure Kept (ds : Declarations) : Prop where
  names : (ds.map Prod.fst).Nodup
  each : ∀ d ∈ ds, IsDeclaration d

variable {ds es : Declarations} {d e : Text × Text}

theorem put_of_not_mem (h : d.1 ∉ ds.map Prod.fst) : put ds d = ds ++ [d] := by
  have hnone : ds.any (·.1 = d.1) = false := by
    refine List.any_eq_false.2 fun e he heq => h ?_
    exact of_decide_eq_true heq ▸ List.mem_map_of_mem he
  simp [put, hnone]

theorem names_put_of_mem (h : d.1 ∈ ds.map Prod.fst) : (put ds d).map Prod.fst = ds.map Prod.fst := by
  have hany : ds.any (·.1 = d.1) = true := by
    obtain ⟨e, he, heq⟩ := List.mem_map.1 h
    exact List.any_eq_true.2 ⟨e, he, by simpa using heq⟩
  rw [put, if_pos hany, List.map_map]
  refine List.map_congr_left fun e _ => ?_
  by_cases heq : e.1 = d.1 <;> simp [heq]

theorem mem_put_self : d ∈ put ds d := by
  unfold put
  split
  · rename_i hany
    obtain ⟨e, he, heq⟩ := List.any_eq_true.1 hany
    exact List.mem_map.2 ⟨e, he, if_pos (by simpa using heq)⟩
  · simp

theorem mem_put_of_ne (he : e ∈ ds) (hne : e.1 ≠ d.1) : e ∈ put ds d := by
  unfold put
  split
  · exact List.mem_map.2 ⟨e, he, if_neg hne⟩
  · exact List.mem_append_left _ he

theorem eq_or_mem_of_mem_put (he : e ∈ put ds d) : e = d ∨ e ∈ ds := by
  unfold put at he
  split at he
  · obtain ⟨e', he', rfl⟩ := List.mem_map.1 he
    split
    · exact .inl rfl
    · exact .inr he'
  · rcases List.mem_append.1 he with he | he
    · exact .inr he
    · exact .inl (List.mem_singleton.1 he)

/-- A declaration that is there is set already. -/
theorem put_of_mem (hds : (ds.map Prod.fst).Nodup) (hd : d ∈ ds) : put ds d = ds := by
  have hany : ds.any (·.1 = d.1) = true := List.any_eq_true.2 ⟨d, hd, by simp⟩
  rw [put, if_pos hany]
  refine (List.map_congr_left fun e he => ?_).trans (List.map_id ds)
  by_cases heq : e.1 = d.1
  · rw [if_pos heq]
    exact (List.inj_on_of_nodup_map hds he hd heq).symm
  · rw [if_neg heq, id]

namespace Kept

theorem nil : Kept [] := ⟨List.nodup_nil, by simp⟩

theorem put (hds : Kept ds) (hd : IsDeclaration d) : Kept (put ds d) := by
  constructor
  · by_cases h : d.1 ∈ ds.map Prod.fst
    · rw [names_put_of_mem h]
      exact hds.names
    · rw [put_of_not_mem h, List.map_append]
      exact List.Nodup.append hds.names (List.nodup_singleton _) (List.disjoint_singleton.2 h)
  · intro e he
    rcases eq_or_mem_of_mem_put he with rfl | he
    · exact hd
    · exact hds.each e he

theorem foldl_put (hds : Kept ds) (hes : ∀ e ∈ es, IsDeclaration e) : Kept (es.foldl Style.put ds) :=
  List.foldlRecOn (motive := Kept) es _ hds fun _ h e he => h.put (hes e he)

end Kept

theorem mem_foldl_put_of_not_mem (hd : d ∈ ds) (hne : d.1 ∉ es.map Prod.fst) : d ∈ es.foldl put ds := by
  induction es generalizing ds with
  | nil => exact hd
  | cons e es ih =>
    obtain ⟨hhead, htail⟩ := not_or.1 (mt List.mem_cons.2 hne)
    exact ih (mem_put_of_ne hd hhead) htail

theorem mem_foldl_put (hes : (es.map Prod.fst).Nodup) (he : e ∈ es) : e ∈ es.foldl put ds := by
  induction es generalizing ds with
  | nil => cases he
  | cons e' es ih =>
    obtain ⟨hhead, htail⟩ := List.nodup_cons.1 hes
    rcases List.mem_cons.1 he with rfl | he
    · exact @mem_foldl_put_of_not_mem _ es _ mem_put_self hhead
    · exact ih htail he

/-- Setting declarations again leaves them as they are. -/
theorem foldl_put_foldl_put (hds : ((es.foldl put ds).map Prod.fst).Nodup) (hes : (es.map Prod.fst).Nodup) :
    es.foldl put (es.foldl put ds) = es.foldl put ds := by
  have hfix (fs : Declarations) (hfs : ∀ f ∈ fs, f ∈ es.foldl put ds) : fs.foldl put (es.foldl put ds) = es.foldl put ds := by
    induction fs with
    | nil => rfl
    | cons f fs ih =>
      rw [List.foldl_cons, put_of_mem hds (hfs f List.mem_cons_self)]
      exact ih fun f hf => hfs f (List.mem_cons_of_mem _ hf)
  exact hfix es fun e he => mem_foldl_put hes he

/-! ## Reading what was printed -/

/-- What one part of a style adds to the declarations before it. -/
def readPart (ds : Declarations) (part : Text) : Declarations :=
  match part.dropWhile (· ≠ ':') with
  | _ :: value =>
    let name := Text.strip (part.takeWhile (· ≠ ':'))
    if name.isEmpty then ds else put ds (name, Text.strip value)
  | [] => ds

theorem read_eq (style : Text) : read style = (Text.splitOnChar ';' style).foldl readPart [] := rfl

theorem Kept.readPart {part : Text} (hds : Kept ds) (hpart : ';' ∉ part) : Kept (readPart ds part) := by
  unfold Style.readPart
  split
  · rename_i c value hvalue
    dsimp only
    split
    · exact hds
    · rename_i hname
      have hstrip (t : Text) (ht : t <:+: part) : ';' ∉ Text.strip t :=
        fun hc => hpart (ht.subset ((Text.strip_part t).subset hc))
      refine hds.put ⟨by simpa using hname, Text.stripped_strip _, Text.stripped_strip _, ?_, ?_, ?_⟩
      · intro hc
        have := List.mem_takeWhile_imp ((Text.strip_part _).subset hc)
        simp at this
      · exact hstrip _ (List.takeWhile_prefix _).isInfix
      · exact hstrip _ ((List.suffix_cons c value).trans (hvalue ▸ List.dropWhile_suffix _)).isInfix
  · exact hds

theorem kept_read (style : Text) : Kept (read style) := by
  rw [read_eq]
  exact List.foldlRecOn (motive := Kept) _ _ .nil fun _ h _ hpart => h.readPart (Text.not_mem_of_mem_splitOnChar hpart)

/-- A printed declaration is read as it was; white space before it is lost. -/
theorem readPart_printed {lead : Text} (hlead : lead = [] ∨ lead = [' ']) (hd : IsDeclaration d) :
    readPart ds (lead ++ (d.1 ++ ": ".toList ++ d.2)) = put ds d := by
  obtain ⟨name, value⟩ := d
  obtain ⟨hnamed, hname, hvalue, hcolon, -⟩ := hd
  dsimp only at hnamed hname hvalue hcolon ⊢
  have hstart : ∀ c ∈ lead ++ name, (decide (c ≠ ':')) = true := by
    intro c hc
    rw [decide_eq_true_eq]
    rintro rfl
    rcases hlead with rfl | rfl <;> simp_all
  have hsplit : lead ++ (name ++ ": ".toList ++ value) = (lead ++ name) ++ ':' :: ' ' :: value := by simp
  rw [hsplit, readPart, List.dropWhile_append_of_pos hstart, List.takeWhile_append_of_pos hstart]
  have hread : Text.strip (lead ++ name) = name := by
    rcases hlead with rfl | rfl
    · exact hname.strip_eq
    · exact (Text.strip_cons_of_isBlank (by decide) name).trans hname.strip_eq
  simp [hread, hnamed, Text.strip_cons_of_isBlank (c := ' ') (by decide) value, hvalue.strip_eq]

/-- Induction on the declarations; `ds` are those already read. -/
theorem foldl_readPart_print {lead : Text} (hlead : lead = [] ∨ lead = [' ']) (hes : ∀ e ∈ es, IsDeclaration e)
    (hnames : ((ds ++ es).map Prod.fst).Nodup) :
    (Text.splitOnChar ';' (lead ++ print es)).foldl readPart ds = ds ++ es := by
  induction es generalizing ds lead with
  | nil => rcases hlead with rfl | rfl <;> simp [print, Text.joinWith, Text.splitOnChar, readPart]
  | cons e es ih =>
    obtain ⟨he, hes⟩ := List.forall_mem_cons.1 hes
    obtain ⟨lead', hlead', hprint⟩ : ∃ lead', (lead' = [] ∨ lead' = [' ']) ∧
        lead ++ print (e :: es) = (lead ++ (e.1 ++ ": ".toList ++ e.2)) ++ ';' :: (lead' ++ print es) := by
      cases es with
      | nil => exact ⟨[], .inl rfl, by simp [print, Text.joinWith]⟩
      | cons f es => exact ⟨[' '], .inr rfl, by simp [print, Text.joinWith]⟩
    have hfree : ';' ∉ lead ++ (e.1 ++ ": ".toList ++ e.2) := by
      rcases hlead with rfl | rfl <;> simp [he.noSemicolon]
    have hfresh : e.1 ∉ ds.map Prod.fst := by
      intro hmem
      rw [List.map_append, List.map_cons] at hnames
      exact List.disjoint_of_nodup_append hnames hmem List.mem_cons_self
    rw [hprint, Text.splitOnChar_append hfree, List.foldl_cons, readPart_printed hlead he, put_of_not_mem hfresh,
      ih hlead' hes (by simpa using hnames), List.append_assoc, List.singleton_append]

theorem read_print (h : Kept ds) : read (print ds) = ds := by
  rw [read_eq]
  have hprinted : (Text.splitOnChar ';' (print ds)).foldl readPart [] = [] ++ ds :=
    foldl_readPart_print (.inl rfl) h.each h.names
  exact hprinted

end Style

/-! ## Attributes -/

namespace Html.Node

variable {name other value tag : Text} {attributes : List Attribute} {children : List Node}

theorem lookup_map_self (h : attributes.any (·.1 = name) = true) :
    (attributes.map fun a => if a.1 = name then (name, value) else a).lookup name = some value := by
  induction attributes with
  | nil => cases h
  | cons a attributes ih =>
    obtain ⟨k, v⟩ := a
    by_cases hk : k = name
    · simp [hk]
    · have hne : (name == k) = false := by simpa using Ne.symm hk
      simp only [List.map_cons, if_neg hk, List.lookup_cons, hne]
      exact ih (by simpa [hk] using h)

theorem lookup_map_of_ne (hne : other ≠ name) :
    (attributes.map fun a => if a.1 = name then (name, value) else a).lookup other = attributes.lookup other := by
  have hfalse : (other == name) = false := by simpa using hne
  induction attributes with
  | nil => rfl
  | cons a attributes ih =>
    obtain ⟨k, v⟩ := a
    by_cases hk : k = name
    · simp [hk, List.lookup_cons, hfalse, ih]
    · simp [hk, List.lookup_cons, ih]

theorem attribute?_setAttribute_self :
    ((element tag attributes children).setAttribute name value).attribute? name = some value := by
  by_cases hany : attributes.any (·.1 = name) = true
  · rw [setAttribute, if_pos hany]
    exact lookup_map_self hany
  · have hnone : attributes.lookup name = none := by
      refine List.lookup_eq_none_iff.2 fun a ha => ?_
      simpa using fun heq => hany (List.any_eq_true.2 ⟨a, ha, by simpa using heq.symm⟩)
    rw [setAttribute, if_neg hany]
    simp [attribute?, List.lookup_append, hnone]

theorem attribute?_setAttribute_of_ne (hne : other ≠ name) (n : Node) :
    (n.setAttribute name value).attribute? other = n.attribute? other := by
  cases n with
  | text s => rfl
  | note kind s => rfl
  | element tag attributes children =>
    have hfalse : (other == name) = false := by simpa using hne
    by_cases hany : attributes.any (·.1 = name) = true
    · rw [setAttribute, if_pos hany]
      exact lookup_map_of_ne hne
    · rw [setAttribute, if_neg hany]
      simp [attribute?, List.lookup_append, List.lookup_cons, hfalse]

/-- Giving an attribute the value that it has changes nothing. -/
theorem setAttribute_setAttribute (n : Node) :
    (n.setAttribute name value).setAttribute name value = n.setAttribute name value := by
  cases n with
  | text s => rfl
  | note kind s => rfl
  | element tag attributes children =>
    have hagain (as : List Attribute) (has : ∀ a ∈ as, a.1 = name → a = (name, value)) :
        as.map (fun a => if a.1 = name then (name, value) else a) = as := by
      refine (List.map_congr_left fun a ha => ?_).trans (List.map_id as)
      by_cases heq : a.1 = name
      · rw [if_pos heq, has a ha heq, id]
      · simp [heq]
    by_cases hany : attributes.any (·.1 = name) = true
    · rw [setAttribute, if_pos hany, setAttribute, if_pos]
      · rw [hagain]
        intro a ha heq
        obtain ⟨b, -, rfl⟩ := List.mem_map.1 ha
        split at heq
        · rename_i hb
          exact if_pos hb
        · contradiction
      · obtain ⟨a, ha, heq⟩ := List.any_eq_true.1 hany
        exact List.any_eq_true.2 ⟨(name, value), List.mem_map.2 ⟨a, ha, if_pos (of_decide_eq_true heq)⟩, by simp⟩
    · rw [setAttribute, if_neg hany, setAttribute, if_pos (by simp)]
      rw [hagain]
      intro a ha heq
      rcases List.mem_append.1 ha with ha | ha
      · exact absurd (List.any_eq_true.2 ⟨a, ha, by simpa using heq⟩) hany
      · exact List.mem_singleton.1 ha

end Html.Node

/-! ## Setting a style -/

namespace Style

/-- The properties as they stand in a style. -/
def dashed (properties : Declarations) : Declarations :=
  properties.map fun (name, value) => (name.map fun c => if c = '_' then '-' else c, value)

variable {properties : Declarations}

/-- Setting the same properties again changes nothing. -/
theorem set_set (hnames : ((dashed properties).map Prod.fst).Nodup) (heach : ∀ d ∈ dashed properties, IsDeclaration d)
    (n : Node) : set properties (set properties n) = set properties n := by
  cases n with
  | text s => rfl
  | note kind s => rfl
  | element tag attributes children =>
    generalize hown : read (((Node.element tag attributes children).attribute? "style").getD []) = own
    have hkept : Kept ((dashed properties).foldl put own) := (hown ▸ kept_read _ : Kept own).foldl_put heach
    have hset : set properties (.element tag attributes children) =
        (Node.element tag attributes children).setAttribute "style" (print ((dashed properties).foldl put own)) := by
      rw [← hown]
      rfl
    have hread : read (((set properties (.element tag attributes children)).attribute? "style").getD []) =
        (dashed properties).foldl put own := by
      rw [hset, Html.Node.attribute?_setAttribute_self, Option.getD_some, read_print hkept]
    have hagain : set properties (set properties (.element tag attributes children)) =
        (set properties (.element tag attributes children)).setAttribute "style" (print ((dashed properties).foldl put own)) := by
      rw [← foldl_put_foldl_put hkept.names hnames, ← hread]
      rfl
    rw [hagain, hset, Html.Node.setAttribute_setAttribute]

end Style

end Galley
