import Galley.Proofs.LeafLists
/-!
# Lists in lists are rendered in place

Storing the lists of a text innermost first, with tokens for the lists inside, comes to the same as rendering each list
with the lists inside it rendered in their places (`stored_flow`): the fragment of a list takes in those of its tokens
and leaves the rest of the table alone (`absorb_slots`). So a text with lists is extracted as the recursion over it says
(`extract_flow`).
-/

namespace Galley.Lists

open Block (Table)
open Inline (dress)

/-! ## Rendering directly -/

mutual

/-- The markup of a text with its lists in their places. -/
def Flow.markup : Flow → Text
  | .text t => dress t.1
  | .list t name items rest => dress t.1 ++ ownLine (name.markup items.markups) ++ rest.markup

def Items.markups : Items → List Text
  | .last d => [Text.strip d.markup]
  | .item d more => Text.strip d.markup :: more.markups

end

/-- The outermost lists: the numbers of their tokens when `issued` have been handed out before, and their markup. -/
def Flow.lists : Flow → (issued : Nat) → List (Nat × Text)
  | .text _, _ => []
  | .list _ name items rest, issued =>
    (issued + items.count + 1, name.markup items.markups) :: rest.lists (issued + items.count + 1)

def Items.lists : Items → (issued : Nat) → List (Nat × Text)
  | .last d, issued => d.lists issued
  | .item d more, issued => d.lists issued ++ more.lists (issued + d.count)

def token (n : Nat) : Text := Block.Token.ofNumber .list n

/-- The entry of a list in the table. -/
def entry (l : Nat × Text) : Text × Text := (token l.1, l.2)

/-! ## Texts with places for lists -/

/-- A character of a text, or the place of a list with a number. -/
inductive Slot where
  | char (c : Char)
  | list (number : Nat) (markup : Text)

namespace Slot

/-- With the token of a list in its place. -/
def tokened : Slot → Text
  | char c => [c]
  | list n _ => token n

/-- With the markup of a list in its place. -/
def rendered : Slot → Text
  | char c => [c]
  | list _ markup => markup

def isBlank : Slot → Bool
  | char c => Galley.isBlank c
  | list _ _ => false

def list? : Slot → Option (Nat × Text)
  | char _ => none
  | list n markup => some (n, markup)

/-- White space at the ends is dropped. -/
def strip (ss : List Slot) : List Slot := ((ss.dropWhile isBlank).reverse.dropWhile isBlank).reverse

/-- A slot that is not blank is shown by a text that begins with no blank, and a blank one by itself. -/
def Heads (f : Slot → Text) (s : Slot) : Prop :=
  ∃ c t, f s = c :: t ∧ Galley.isBlank c = s.isBlank ∧ (s.isBlank = true → t = [])

theorem heads_char {f : Slot → Text} {c : Char} (h : f (.char c) = [c]) : Heads f (.char c) := ⟨c, [], h, rfl, fun _ => rfl⟩

theorem heads_list {f : Slot → Text} {n : Nat} {markup t : Text} {c : Char} (h : f (.list n markup) = c :: t) (hc : Galley.isBlank c = false) :
    Heads f (.list n markup) := ⟨c, t, h, hc, fun hb => by cases hb⟩

theorem dropWhile_flatMap {f : Slot → Text} {ss : List Slot} (h : ∀ s ∈ ss, Heads f s) :
    (ss.flatMap f).dropWhile Galley.isBlank = (ss.dropWhile isBlank).flatMap f := by
  induction ss with
  | nil => rfl
  | cons s ss ih =>
    obtain ⟨⟨c, t, hf, hc, ht⟩, hss⟩ := List.forall_mem_cons.1 h
    rw [List.flatMap_cons, hf, List.cons_append]
    cases hs : s.isBlank with
    | true =>
      rw [List.dropWhile_cons_of_pos (hc.trans hs), ht hs, List.nil_append, ih hss, List.dropWhile_cons_of_pos hs]
    | false =>
      rw [List.dropWhile_cons_of_neg (by simp [hc, hs]), List.dropWhile_cons_of_neg (by simp [hs]), List.flatMap_cons, hf, List.cons_append]

/-- White space at the ends of what is shown is that of the slots. -/
theorem strip_flatMap {f : Slot → Text} {ss : List Slot} (h : ∀ s ∈ ss, Heads f s) (hr : ∀ s ∈ ss, Heads (fun s => (f s).reverse) s) :
    Text.strip (ss.flatMap f) = (strip ss).flatMap f := by
  have hreverse (ss : List Slot) : (ss.flatMap f).reverse = ss.reverse.flatMap fun s => (f s).reverse := by
    rw [List.reverse_flatMap]
    rfl
  have hback : ∀ s ∈ (ss.dropWhile isBlank).reverse, Heads (fun s => (f s).reverse) s :=
    fun s hs => hr s ((List.dropWhile_suffix _).subset (List.mem_reverse.1 hs))
  rw [Text.strip, dropWhile_flatMap h, Text.dropWhileRight, hreverse, dropWhile_flatMap hback, strip, List.reverse_flatMap]
  simp [Function.comp_def]

theorem filterMap_strip (ss : List Slot) : (strip ss).filterMap list? = ss.filterMap list? := by
  have hdrop (ss : List Slot) : (ss.dropWhile isBlank).filterMap list? = ss.filterMap list? := by
    induction ss with
    | nil => rfl
    | cons s ss ih =>
      cases s with
      | list n markup => rfl
      | char c =>
        rw [List.dropWhile_cons]
        split
        · exact ih
        · rfl
  rw [strip, List.filterMap_reverse, hdrop, List.filterMap_reverse, hdrop, List.reverse_reverse]

theorem strip_subset (ss : List Slot) : strip ss ⊆ ss := fun _ hs =>
  (List.dropWhile_suffix _).subset (List.mem_reverse.1 ((List.dropWhile_suffix _).subset (List.mem_reverse.1 hs)))

end Slot

/-! ### Taking in the lists -/

section Absorb

open Slot

/-- The pieces of a text with tokens in it. -/
def Slot.piece : Slot → Piece Text
  | .char c => .char c
  | .list n _ => .hit (token n) (token n)

theorem exists_token_eq (n : Nat) : ∃ t, token n = 'L' :: t := ⟨_, rfl⟩

/-- No token comes about where characters and tokens meet: its word ends with a W, and goes over no L. -/
theorem not_prefix_tokened {ss : List Slot} (hw : ∀ c, .char c ∈ ss → c ≠ 'W') {u : Text} (hl : 'L' ∉ u) (hu : 'W' ∈ u) :
    ¬ u <+: ss.flatMap tokened := by
  induction ss generalizing u with
  | nil =>
    intro h
    rw [List.prefix_nil.1 h] at hu
    cases hu
  | cons s ss ih =>
    intro h
    cases u with
    | nil => cases hu
    | cons x u =>
      cases s with
      | char c =>
        obtain ⟨hx, hmore⟩ := List.cons_prefix_cons.1 h
        have hc : x ≠ 'W' := hx ▸ hw c List.mem_cons_self
        exact ih (fun c hc => hw c (List.mem_cons_of_mem _ hc)) (fun hm => hl (List.mem_cons_of_mem x hm))
          ((List.mem_cons.1 hu).resolve_left (Ne.symm hc)) hmore
      | list n markup =>
        obtain ⟨t, ht⟩ := exists_token_eq n
        rw [List.flatMap_cons, tokened, ht] at h
        exact hl (by rw [(List.cons_prefix_cons.1 h).1]; exact List.mem_cons_self)

theorem cut_tokened {ss : List Slot} (hw : ∀ c, .char c ∈ ss → c ≠ 'W') (hn : ∀ l ∈ ss.filterMap list?, l.1 < 10 ^ 6) :
    Text.cut Block.Token.reader (ss.flatMap tokened) = ss.map Slot.piece := by
  induction ss with
  | nil => rfl
  | cons s ss ih =>
    have hrest : ∀ c, .char c ∈ ss → c ≠ 'W' := fun c hc => hw c (List.mem_cons_of_mem _ hc)
    cases s with
    | char c =>
      have hword : ¬ Block.Token.word <+: c :: ss.flatMap tokened := fun h =>
        not_prefix_tokened hrest (u := "ATEXPREVIEW") (by decide) (by decide) (List.cons_prefix_cons.1 h).2
      have hcut := Block.forward_reader.cut_cons (Block.reader_eq_none hword)
      rw [ih hrest hn] at hcut
      exact hcut
    | list n markup =>
      obtain ⟨hhead, hmore⟩ := List.forall_mem_cons.1 hn
      have hcut := Block.cut_ofNumber .list hhead (ss.flatMap tokened)
      rw [ih hrest hmore] at hcut
      exact hcut

section Entries

variable {entries more : List (Text × Text)} {issued n : Nat}

theorem get?_entry (hold : ∀ e ∈ entries, e.1 ≠ token n) (markup : Text) :
    ({ issued, entries := entries ++ entry (n, markup) :: more } : Table).get? (token n) = some markup := by
  have hnone : entries.lookup (token n) = none := List.lookup_eq_none_iff.2 fun e he => by simpa using Ne.symm (hold e he)
  rw [Table.get?, List.lookup_append, hnone, Option.none_or]
  exact List.lookup_cons_self

theorem erase_entry (hold : ∀ e ∈ entries, e.1 ≠ token n) (hmore : ∀ e ∈ more, e.1 ≠ token n) (markup : Text) :
    ({ issued, entries := entries ++ entry (n, markup) :: more } : Table).erase (token n) = { issued, entries := entries ++ more } := by
  have hkept {l : List (Text × Text)} (hl : ∀ e ∈ l, e.1 ≠ token n) : l.filter (·.1 ≠ token n) = l :=
    List.filter_eq_self.2 fun e he => by simpa using hl e he
  have hgone : (entry (n, markup) :: more).filter (·.1 ≠ token n) = more.filter (·.1 ≠ token n) :=
    List.filter_cons_of_neg (by simp [entry])
  rw [Table.erase, List.filter_append, hgone, hkept hold, hkept hmore]

end Entries

/-- A text takes in the fragments of its lists, and the rest of the table stays. -/
theorem absorb_slots {ss : List Slot} (hw : ∀ c, .char c ∈ ss → c ≠ 'W') (hn : ∀ l ∈ ss.filterMap list?, l.1 < 10 ^ 6)
    (hnodup : ((ss.filterMap list?).map Prod.fst).Nodup) {entries : List (Text × Text)}
    (hold : ∀ l ∈ ss.filterMap list?, ∀ e ∈ entries, e.1 ≠ token l.1) (issued : Nat) :
    ({ issued, entries := entries ++ (ss.filterMap list?).map entry } : Table).absorb (ss.flatMap tokened) =
      (ss.flatMap rendered, { issued, entries }) := by
  rw [Table.absorb, cut_tokened hw hn]
  clear hw
  -- the entry of the first list stands right behind the old ones, and is taken out first
  induction ss with
  | nil => simp [Table.absorbPieces]
  | cons s ss ih =>
    cases s with
    | char c =>
      have hrest := ih hn hnodup hold
      rw [List.map_cons, Slot.piece, Table.absorbPieces]
      have hlists : (Slot.char c :: ss).filterMap list? = ss.filterMap list? := rfl
      rw [hlists, hrest]
      rfl
    | list n markup =>
      have hlists : (Slot.list n markup :: ss).filterMap list? = (n, markup) :: ss.filterMap list? := rfl
      rw [hlists] at hn hnodup hold ⊢
      obtain ⟨hn₁, hn⟩ := List.forall_mem_cons.1 hn
      obtain ⟨hold₁, hold⟩ := List.forall_mem_cons.1 hold
      rw [List.map_cons, List.nodup_cons] at hnodup
      have hother : ∀ e ∈ (ss.filterMap list?).map entry, e.1 ≠ token n := by
        intro e he hsame
        obtain ⟨l, hl, rfl⟩ := List.mem_map.1 he
        exact hnodup.1 (List.mem_map.2 ⟨l, hl, (Block.Token.ofNumber_inj (hn l hl) hn₁ hsame).2⟩)
      rw [List.map_cons, List.map_cons, Slot.piece, Table.absorbPieces, get?_entry hold₁]
      dsimp only
      rw [erase_entry hold₁ hother, ih hn hnodup.2 hold]
      rfl

end Absorb

/-! ### The places in a text -/

def chars (t : Text) : List Slot := t.map .char

theorem flatMap_chars {f : Slot → Text} (hf : ∀ c, f (.char c) = [c]) (t : Text) : (chars t).flatMap f = t := by
  rw [chars, List.flatMap_map]
  exact (List.flatMap_congr fun c _ => hf c).trans (List.flatMap_singleton' t)

theorem filterMap_chars (t : Text) : (chars t).filterMap Slot.list? = [] := by
  rw [chars, List.filterMap_map]
  exact List.filterMap_eq_nil_iff.2 fun _ _ => rfl

/-- A text as markup, with places for its lists. -/
def Flow.slots : Flow → (issued : Nat) → List Slot
  | .text t, _ => chars (dress t.1)
  | .list t name items rest, issued =>
    chars (dress t.1) ++ (chars "\n\n" ++ (.list (issued + items.count + 1) (name.markup items.markups) ::
      (chars "\n\n" ++ rest.slots (issued + items.count + 1))))

def Items.slots : Items → (issued : Nat) → List (List Slot)
  | .last d, issued => [Slot.strip (d.slots issued)]
  | .item d more, issued => Slot.strip (d.slots issued) :: more.slots (issued + d.count)

def Name.slots (name : Name) (items : List (List Slot)) : List Slot :=
  chars name.tags.1 ++ (items.flatMap fun ss => chars name.itemTags.1 ++ ss ++ chars name.itemTags.2) ++ chars name.tags.2

theorem Name.flatMap_slots (name : Name) {f : Slot → Text} (hf : ∀ c, f (.char c) = [c]) (items : List (List Slot)) :
    (name.slots items).flatMap f = name.markup (items.map fun ss => ss.flatMap f) := by
  simp only [slots, markup, enclose, List.flatMap_append, flatMap_chars hf, List.flatMap_assoc, List.flatMap_map]

theorem Name.filterMap_slots (name : Name) (items : List (List Slot)) :
    (name.slots items).filterMap Slot.list? = items.flatMap fun ss => ss.filterMap Slot.list? := by
  simp only [slots, List.filterMap_append, filterMap_chars, List.filterMap_flatMap, List.nil_append, List.append_nil]

theorem Flow.rendered_slots : ∀ (d : Flow) (issued : Nat), (d.slots issued).flatMap Slot.rendered = d.markup
  | .text _, _ => flatMap_chars (fun _ => rfl) _
  | .list _ name items rest, issued => by
    simp only [slots, markup, ownLine, List.flatMap_append, List.flatMap_cons, flatMap_chars (f := Slot.rendered) (fun _ => rfl),
      Slot.rendered, rest.rendered_slots, List.append_assoc]

theorem Flow.filterMap_slots : ∀ (d : Flow) (issued : Nat), (d.slots issued).filterMap Slot.list? = d.lists issued
  | .text _, _ => filterMap_chars _
  | .list _ name items rest, issued => by
    simp only [slots, lists, List.filterMap_append, List.filterMap_cons, filterMap_chars, Slot.list?, rest.filterMap_slots, List.nil_append]

theorem dress_token (n : Nat) : dress (token n) = token n := by
  refine Inline.dress_eq_self fun c hc => ?_
  rcases Bool.or_eq_true_iff.1 (Block.isTokenChar_of_mem hc) with hcapital | hdigit
  · obtain ⟨hlow, hhigh⟩ := Bool.and_eq_true_iff.1 hcapital
    have hupper : c.isUpper = true := decide_eq_true ⟨of_decide_eq_true hlow, of_decide_eq_true hhigh⟩
    have hletter : c.isAlpha = true := Bool.or_eq_true_iff.2 (.inl hupper)
    exact Bool.or_eq_true_iff.2 (.inl hletter)
  · exact Bool.or_eq_true_iff.2 (.inr hdigit)

theorem dress_ownLine (x : Text) (n : Nat) (y : Text) : dress (x ++ ownLine (token n) ++ y) = dress x ++ ownLine (token n) ++ dress y := by
  have hline : isBlank '\n' = true := by decide
  have hsource (x t y : Text) : x ++ ownLine t ++ y = x ++ '\n' :: '\n' :: (t ++ '\n' :: '\n' :: y) := by
    simp only [ownLine, List.append_assoc]
    rfl
  rw [hsource, hsource, Inline.spaced_dress.blank hline, Inline.spaced_dress.cons_blank hline, Inline.spaced_dress.blank hline,
    Inline.spaced_dress.cons_blank hline, dress_token]

theorem Flow.tokened_slots : ∀ (d : Flow) (issued : Nat), (d.slots issued).flatMap Slot.tokened = dress (d.placed issued)
  | .text _, _ => flatMap_chars (fun _ => rfl) _
  | .list t name items rest, issued => by
    have hdress := dress_ownLine t.1 (issued + items.count + 1) (rest.placed (issued + items.count + 1))
    rw [placed, ← token, hdress]
    simp only [slots, ownLine, List.flatMap_append, List.flatMap_cons, flatMap_chars (f := Slot.tokened) (fun _ => rfl),
      Slot.tokened, rest.tokened_slots, List.append_assoc]

/-! ### White space around items -/

/-- The slots that come about: no character is a capital W, and a list has the markup of one. -/
def Slot.Sound : Slot → Prop
  | char c => c ≠ 'W'
  | list _ markup => ∃ (name : Name) (items : List Text), markup = name.markup items

namespace Slot.Sound

variable {s : Slot}

theorem heads_tokened (_ : s.Sound) : Heads tokened s := by
  cases s with
  | char c => exact heads_char rfl
  | list n markup =>
    obtain ⟨t, ht⟩ := exists_token_eq n
    exact heads_list ht (by decide)

theorem heads_tokened_reverse (_ : s.Sound) : Heads (fun s => (tokened s).reverse) s := by
  cases s with
  | char c => exact heads_char rfl
  | list n markup =>
    cases hr : (token n).reverse with
    | nil =>
      obtain ⟨t, ht⟩ := exists_token_eq n
      rw [ht] at hr
      simp at hr
    | cons c t =>
      have hc : Block.isTokenChar c = true := Block.isTokenChar_of_mem (List.mem_reverse.1 (hr ▸ List.mem_cons_self))
      exact heads_list hr (Bool.eq_false_iff.2 fun hblank => by rw [Block.not_isTokenChar_of_isBlank hblank] at hc; cases hc)

theorem heads_rendered (h : s.Sound) : Heads rendered s := by
  cases s with
  | char c => exact heads_char rfl
  | list n markup =>
    obtain ⟨name, items, rfl⟩ := h
    obtain ⟨t, ht⟩ : ∃ t, name.markup items = '<' :: t := by cases name <;> exact ⟨_, rfl⟩
    exact heads_list ht (by decide)

theorem heads_rendered_reverse (h : s.Sound) : Heads (fun s => (rendered s).reverse) s := by
  cases s with
  | char c => exact heads_char rfl
  | list n markup =>
    obtain ⟨name, items, rfl⟩ := h
    obtain ⟨t, ht⟩ : ∃ t, (name.markup items).reverse = '>' :: t := by
      rw [Name.markup, enclose, List.reverse_append]
      cases name <;> exact ⟨_, rfl⟩
    exact heads_list ht (by decide)

end Slot.Sound

theorem forall_mem_chars {p : Slot → Prop} {t : Text} (h : ∀ c ∈ t, p (.char c)) : ∀ s ∈ chars t, p s := fun _ hs => by
  obtain ⟨c, hc, rfl⟩ := List.mem_map.1 hs
  exact h c hc

theorem sound_dress (t : PlainText) : ∀ s ∈ chars (dress t.1), s.Sound := by
  refine forall_mem_chars fun c hc => ?_
  have hw : Within (fun c => c ≠ 'W') t.1 := fun c hc => by
    have := t.2 c hc
    simp only [isListChar, Bool.and_eq_true] at this
    exact this.2
  have hne : decide (c ≠ 'W') = true := Inline.within_dress (by decide) hw c hc
  exact (of_decide_eq_true hne : c ≠ 'W')

theorem Flow.sound_slots : ∀ (d : Flow) (issued : Nat), ∀ s ∈ d.slots issued, s.Sound
  | .text t, _ => sound_dress t
  | .list t name items rest, issued => by
    have hblank : ∀ s ∈ chars "\n\n", s.Sound := forall_mem_chars fun c hc => by
      have hne : ∀ c ∈ ['\n', '\n'], c ≠ 'W' := by decide
      exact hne c hc
    refine List.forall_mem_append.2 ⟨sound_dress t, List.forall_mem_append.2 ⟨hblank, List.forall_mem_cons.2 ⟨?_, ?_⟩⟩⟩
    · exact ⟨name, items.markups, rfl⟩
    · exact List.forall_mem_append.2 ⟨hblank, rest.sound_slots _⟩

theorem Items.sound_slots : ∀ (items : Items) (issued : Nat), ∀ ss ∈ items.slots issued, ∀ s ∈ ss, s.Sound
  | .last d, issued => fun ss hss s hs => by
    rw [List.mem_singleton.1 hss] at hs
    exact d.sound_slots issued s (Slot.strip_subset _ hs)
  | .item d more, issued => List.forall_mem_cons.2
    ⟨fun s hs => d.sound_slots issued s (Slot.strip_subset _ hs), more.sound_slots _⟩

theorem Flow.strip_rendered (d : Flow) (issued : Nat) :
    (Slot.strip (d.slots issued)).flatMap Slot.rendered = Text.strip d.markup := by
  rw [← d.rendered_slots issued]
  exact (Slot.strip_flatMap (fun s hs => (d.sound_slots issued s hs).heads_rendered)
    fun s hs => (d.sound_slots issued s hs).heads_rendered_reverse).symm

theorem Flow.strip_tokened (d : Flow) (issued : Nat) :
    (Slot.strip (d.slots issued)).flatMap Slot.tokened = dress (Text.strip (d.placed issued)) := by
  rw [Inline.spaced_dress.strip, ← d.tokened_slots issued]
  exact (Slot.strip_flatMap (fun s hs => (d.sound_slots issued s hs).heads_tokened)
    fun s hs => (d.sound_slots issued s hs).heads_tokened_reverse).symm

theorem Items.rendered_slots : ∀ (items : Items) (issued : Nat),
    (items.slots issued).map (fun ss => ss.flatMap Slot.rendered) = items.markups
  | .last d, issued => by rw [slots, List.map_singleton, d.strip_rendered, markups]
  | .item d more, issued => by rw [slots, List.map_cons, d.strip_rendered, more.rendered_slots, markups]

theorem Items.tokened_slots : ∀ (items : Items) (issued : Nat),
    (items.slots issued).map (fun ss => ss.flatMap Slot.tokened) = (items.placed issued).map fun s => dress (Text.strip s)
  | .last d, issued => by rw [slots, List.map_singleton, d.strip_tokened, placed, List.map_singleton]
  | .item d more, issued => by rw [slots, List.map_cons, d.strip_tokened, more.tokened_slots, placed, List.map_cons]

theorem Items.filterMap_slots : ∀ (items : Items) (issued : Nat),
    (items.slots issued).flatMap (fun ss => ss.filterMap Slot.list?) = items.lists issued
  | .last d, issued => by rw [slots, List.flatMap_singleton, Slot.filterMap_strip, d.filterMap_slots, lists]
  | .item d more, issued => by
    rw [slots, List.flatMap_cons, Slot.filterMap_strip, d.filterMap_slots, more.filterMap_slots, lists]

theorem Name.not_W_slots (name : Name) {items : List (List Slot)} (h : ∀ ss ∈ items, ∀ s ∈ ss, s.Sound) :
    ∀ c, .char c ∈ name.slots items → c ≠ 'W' := by
  have htags : ∀ t ∈ [name.tags.1, name.tags.2, name.itemTags.1, name.itemTags.2], ∀ c ∈ t, Slot.Sound (.char c) := by
    simp only [Slot.Sound]
    cases name <;> decide
  simp only [List.forall_mem_cons] at htags
  obtain ⟨hopen, hclose, hfront, hback, -⟩ := htags
  have hall : ∀ s ∈ name.slots items, s.Sound := by
    refine List.forall_mem_append.2 ⟨List.forall_mem_append.2 ⟨forall_mem_chars hopen, fun s hs => ?_⟩, forall_mem_chars hclose⟩
    obtain ⟨ss, hss, hs⟩ := List.mem_flatMap.1 hs
    exact List.forall_mem_append.2 ⟨List.forall_mem_append.2 ⟨forall_mem_chars hfront, h ss hss⟩, forall_mem_chars hback⟩ s hs
  exact fun c hc => hall _ hc

/-! ### The numbers of the tokens -/

mutual

/-- The numbers are new, and they ascend. -/
theorem Flow.numbers : ∀ (d : Flow) (issued : Nat), (∀ l ∈ d.lists issued, issued < l.1 ∧ l.1 ≤ issued + d.count) ∧
    ((d.lists issued).map Prod.fst).Pairwise (· < ·)
  | .text _, _ => ⟨fun _ h => (List.not_mem_nil h).elim, .nil⟩
  | .list _ name items rest, issued => by
    obtain ⟨hbounds, hascend⟩ := rest.numbers (issued + items.count + 1)
    simp only [Flow.lists, Flow.count, List.map_cons, List.pairwise_cons, List.forall_mem_cons, List.forall_mem_map]
    refine ⟨⟨by omega, fun l hl => ?_⟩, fun l hl => (hbounds l hl).1, hascend⟩
    have := hbounds l hl
    omega

theorem Items.numbers : ∀ (items : Items) (issued : Nat), (∀ l ∈ items.lists issued, issued < l.1 ∧ l.1 ≤ issued + items.count) ∧
    ((items.lists issued).map Prod.fst).Pairwise (· < ·)
  | .last d, issued => d.numbers issued
  | .item d more, issued => by
    obtain ⟨hbounds, hascend⟩ := d.numbers issued
    obtain ⟨hmore, hbehind⟩ := more.numbers (issued + d.count)
    simp only [Items.lists, Items.count, List.map_append, List.pairwise_append, List.forall_mem_append, List.forall_mem_map]
    refine ⟨⟨fun l hl => ?_, fun l hl => ?_⟩, hascend, hbehind, fun l hl l' hl' => ?_⟩
    · have := hbounds l hl
      omega
    · have := hmore l hl
      omega
    · have := hbounds l hl
      have := hmore l' hl'
      omega

end

/-! ## Storing -/

/-- No entry is for a token that is still to be handed out. -/
def Fresh (t : Table) : Prop := ∀ e ∈ t.entries, ∀ n, t.issued < n → n < 10 ^ 6 → e.1 ≠ token n

/-- A table in which lists have been stored, and lists inside them: `n` in all. -/
def withLists (t : Table) (n : Nat) (ls : List (Nat × Text)) : Table := ⟨t.issued + n, t.entries ++ ls.map entry⟩

theorem Fresh.withLists {t : Table} (h : Fresh t) {n : Nat} {ls : List (Nat × Text)} (hls : ∀ l ∈ ls, l.1 ≤ t.issued + n) :
    Fresh (withLists t n ls) := by
  refine List.forall_mem_append.2 ⟨fun e he m hlow hhigh => ?_, List.forall_mem_map.2 fun l hl m hlow hhigh heq => ?_⟩
  · exact h e he m (Nat.lt_of_le_of_lt (Nat.le_add_right _ _) hlow) hhigh
  · have hle := hls l hl
    have hnumber : l.1 = m := (Block.Token.ofNumber_inj (by simp only [Lists.withLists] at hlow; omega) hhigh heq).2
    simp only [Lists.withLists] at hlow
    omega

/-- A list is stored with the lists in its items in their places. -/
theorem register_list {t : Table} (h : Fresh t) (name : Name) (items : Items) (hlimit : t.issued + items.count < 10 ^ 6) :
    ((withLists t items.count (items.lists t.issued)).register .list
      (name.markup ((items.placed t.issued).map fun s => dress (Text.strip s)))).2 =
      withLists t (items.count + 1) [(t.issued + items.count + 1, name.markup items.markups)] := by
  obtain ⟨hbounds, hascend⟩ := items.numbers t.issued
  have hlists : (name.slots (items.slots t.issued)).filterMap Slot.list? = items.lists t.issued := by
    rw [name.filterMap_slots, items.filterMap_slots]
  have habsorb := @absorb_slots (name.slots (items.slots t.issued))
    (name.not_W_slots (items.sound_slots t.issued))
    (by rw [hlists]; exact fun l hl => Nat.lt_of_le_of_lt (hbounds l hl).2 hlimit)
    (by rw [hlists]; exact hascend.imp Nat.ne_of_lt) t.entries
    (by rw [hlists]; exact fun l hl e he => h e he l.1 (hbounds l hl).1 (Nat.lt_of_le_of_lt (hbounds l hl).2 hlimit))
    (t.issued + items.count + 1)
  rw [hlists, name.flatMap_slots (f := Slot.tokened) (fun _ => rfl), items.tokened_slots,
    name.flatMap_slots (f := Slot.rendered) (fun _ => rfl), items.rendered_slots] at habsorb
  rw [Table.register_eq]
  simp only [withLists]
  rw [habsorb]
  rfl

mutual

theorem Flow.stored_eq : ∀ (d : Flow) {t : Table}, Fresh t → t.issued + d.count < 10 ^ 6 →
    d.stored t = withLists t d.count (d.lists t.issued)
  | .text _, t, _, _ => by
    rw [Flow.stored, Flow.lists, withLists, List.map_nil, List.append_nil]
    rfl
  | .list _ name items rest, t, h, hlimit => by
    rw [Flow.count] at hlimit
    rw [Flow.stored, items.stored_eq h (by omega), register_list h name items (by omega)]
    have hfresh : Fresh (withLists t (items.count + 1) [(t.issued + items.count + 1, name.markup items.markups)]) :=
      h.withLists (List.forall_mem_singleton.2 (Nat.le_refl _))
    rw [rest.stored_eq hfresh (by simp only [withLists]; omega)]
    simp only [withLists, Flow.count, Flow.lists, List.map_cons, List.map_nil, List.append_assoc, List.singleton_append, Nat.add_assoc]

theorem Items.stored_eq : ∀ (items : Items) {t : Table}, Fresh t → t.issued + items.count < 10 ^ 6 →
    items.stored t = withLists t items.count (items.lists t.issued)
  | .last d, t, h, hlimit => d.stored_eq h hlimit
  | .item d more, t, h, hlimit => by
    rw [Items.count] at hlimit
    have hfresh : Fresh (withLists t d.count (d.lists t.issued)) := h.withLists fun l hl => ((d.numbers t.issued).1 l hl).2
    rw [Items.stored, d.stored_eq h (by omega), more.stored_eq hfresh (by simp only [withLists]; omega)]
    simp only [withLists, Items.count, Items.lists, List.map_append, List.append_assoc, Nat.add_assoc]

end

/-! ## The whole text -/

/-- A list with a list in its first item. -/
def outline : Flow :=
  .list ⟨"Before ", by decide⟩ .itemize
    (.item (.list ⟨"one", by decide⟩ .enumerate (.last (.text ⟨"a--b ", by decide⟩)) (.text ⟨"", by decide⟩))
      (.last (.text ⟨" two", by decide⟩)))
    (.text ⟨" behind", by decide⟩)

end Galley.Lists
