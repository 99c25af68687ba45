import Galley.Proofs.Delimiters
import Galley.Proofs.Edges
import Mathlib.Data.List.Induction
/-!
# Characters behind backslashes

A character is escaped if it stands behind an odd number of backslashes. A text is read character by character with
one bit of memory, which tells whether the next character is escaped, or only whether it stands behind a backslash
(`behind`); `Guards` says that each occurrence of a character finds the bit set. What is put in the place of a construct
keeps this if the bit does not notice the change (`Guards.replaceAll`). Taking a construct out keeps it unless the
construct itself begins escaped: then the backslash in front of it comes to stand before what follows (`clean`,
`Guards.removeAll`).
-/

namespace Galley

open Extract.Formula (slashes slashesBefore)

variable {α : Type} {next : Bool → Bool} {x c : Char} {e : Bool} {s t : Text}

/-! ## The memory of a reader -/

/-- The bit behind a text: a backslash changes it by `next`, any other character clears it. -/
def behind (next : Bool → Bool) (e : Bool) (s : Text) : Bool := s.foldl (fun e c => decide (c = '\\') && next e) e

/-- Whether the next character is escaped behind a text. -/
abbrev inertBehind (s : Text) : Bool := behind not false s

@[simp] theorem behind_nil : behind next e [] = e := rfl

@[simp] theorem behind_cons : behind next e (c :: s) = behind next (decide (c = '\\') && next e) s := rfl

@[simp] theorem behind_append : behind next e (s ++ t) = behind next (behind next e s) t := List.foldl_append

/-- A text that does not end with a backslash. -/
def EndsPlain (s : Text) : Prop := ∃ t c, s = t ++ [c] ∧ c ≠ '\\'

theorem EndsPlain.behind_eq (h : EndsPlain s) (next : Bool → Bool) (e : Bool) : behind next e s = false := by
  obtain ⟨t, c, rfl, hc⟩ := h
  simp [hc]

theorem EndsPlain.of_getLast? (h : (s.getLast?.any (· ≠ '\\')) = true) : EndsPlain s := by
  obtain ⟨c, hc, hne⟩ := Option.any_eq_true .. |>.1 h
  obtain ⟨u, rfl⟩ := List.getLast?_eq_some_iff.1 hc
  exact ⟨u, c, rfl, by simpa using hne⟩

theorem slashesBefore_concat (s : Text) (c : Char) :
    slashesBefore (s ++ [c]) = if c = '\\' then slashesBefore s + 1 else 0 := by
  rw [slashesBefore, slashesBefore, slashes, slashes, List.reverse_append, List.reverse_singleton, List.singleton_append,
    List.takeWhile_cons]
  split <;> simp_all

theorem slashesBefore_odd_iff (s : Text) : slashesBefore s % 2 = 1 ↔ inertBehind s = true := by
  induction s using List.reverseRecOn with
  | nil => simp [slashesBefore, slashes]
  | append_singleton s c ih =>
    rw [slashesBefore_concat, inertBehind, behind_append]
    by_cases hc : c = '\\'
    · cases hbit : behind not false s with
      | false =>
        have := mt ih.1 (by rw [inertBehind, hbit]; decide)
        simp only [hc, if_true, behind_cons, behind_nil, decide_true, Bool.true_and, Bool.not_false, iff_true]
        omega
      | true =>
        have := ih.2 hbit
        simp only [hc, if_true, behind_cons, behind_nil, decide_true, Bool.true_and, Bool.not_true, Bool.false_eq_true, iff_false]
        omega
    · simp [hc]

theorem behind_true_iff (s : Text) : behind (fun _ => true) false s = true ↔ s.getLast? = some '\\' := by
  induction s using List.reverseRecOn with
  | nil => simp
  | append_singleton s c _ => simp

/-- Each `x` of a text finds the bit set. -/
def Guards (next : Bool → Bool) (x : Char) (e : Bool) (s : Text) : Prop :=
  ∀ before after, s = before ++ x :: after → behind next e before = true

namespace Guards

@[simp] theorem nil : Guards next x e [] := fun before after h => by simp at h

theorem cons_iff : Guards next x e (c :: s) ↔ (c = x → e = true) ∧ Guards next x (decide (c = '\\') && next e) s := by
  constructor
  · intro h
    refine ⟨fun hc => h [] s (by rw [hc]; rfl), fun before after hs => ?_⟩
    exact h (c :: before) after (by rw [hs, List.cons_append])
  · rintro ⟨hhead, htail⟩ before after hs
    cases before with
    | nil => exact hhead (List.cons.inj hs).1
    | cons b before =>
      obtain ⟨rfl, rfl⟩ := List.cons.inj hs
      exact htail before after rfl

theorem append_iff : Guards next x e (s ++ t) ↔ Guards next x e s ∧ Guards next x (behind next e s) t := by
  induction s generalizing e with
  | nil => simp
  | cons c s ih => rw [List.cons_append, cons_iff, cons_iff, ih, behind_cons, and_assoc]

theorem of_not_mem (h : x ∉ s) : Guards next x e s := by
  rintro before after rfl
  exact absurd (List.mem_append_right before List.mem_cons_self) h

instance decidable : (e : Bool) → (s : Text) → Decidable (Guards next x e s)
  | _, [] => .isTrue nil
  | e, c :: s =>
    have : Decidable (Guards next x (decide (c = '\\') && next e) s) := decidable _ s
    decidable_of_iff _ cons_iff.symm

/-- Replacing line ends and the like one by one changes nothing. -/
theorem map {f : Char → Char} (hslash : ∀ c, f c = '\\' ↔ c = '\\') (hx : ∀ c, f c = x → c = x) (h : Guards next x e s) :
    Guards next x e (s.map f) := by
  induction s generalizing e with
  | nil => exact nil
  | cons c s ih =>
    obtain ⟨hhead, htail⟩ := cons_iff.1 h
    have hdecide : decide (f c = '\\') = decide (c = '\\') := decide_eq_decide.2 (hslash c)
    exact cons_iff.2 ⟨fun hc => hhead (hx c hc), by rw [hdecide]; exact ih htail⟩

/-! ## Replacing constructs -/

/-- The bit does not notice `new` in the place of `old`, and each `x` of `new` is guarded if those of `old` are. -/
structure Swaps (next : Bool → Bool) (x : Char) (old new : Text) : Prop where
  bit : ∀ e, behind next e new = behind next e old
  guards : ∀ e, Guards next x e old → Guards next x e new

theorem Swaps.of_ends {old new : Text} (ho : EndsPlain old) (hn : EndsPlain new) (hx : x ∉ new) : Swaps next x old new where
  bit e := by rw [hn.behind_eq, ho.behind_eq]
  guards _ _ := of_not_mem hx

theorem replaceAll {read : Reader α} {f : α → Text}
    (hf : ∀ before t a rest, read before t = some (a, rest) → Swaps next x (t.upTo rest) (f a))
    (h : Guards next x e s) : Guards next x e (s.replaceAll read f) := by
  have main (g : Piece α → Text) (ps : List (Piece α)) (hg : ∀ p ∈ ps, Swaps next x p.source (g p)) {e : Bool}
      (h : Guards next x e (Piece.sources ps)) : Guards next x e (ps.flatMap g) := by
    induction ps generalizing e with
    | nil => exact nil
    | cons p ps ih =>
      have hp := hg p List.mem_cons_self
      rw [Piece.sources, List.flatMap_cons, append_iff] at h
      rw [List.flatMap_cons, append_iff, hp.bit]
      exact ⟨hp.guards e h.1, ih (fun q hq => hg q (List.mem_cons_of_mem p hq)) h.2⟩
  refine main _ _ (fun p hp => ?_) (by rwa [Text.sources_cut])
  rcases Text.mem_cut hp with ⟨c, -, rfl⟩ | ⟨a, before, t, rest, rfl, -, hr⟩
  · exact ⟨fun _ => rfl, fun _ h => h⟩
  · exact hf before t a rest hr

/-- A construct and what is put in its place end alike. -/
theorem mark {read : Reader α} {new : Text} (hread : Takes EndsPlain read) (hnew : EndsPlain new) (hx : x ∉ new)
    (h : Guards next x e s) : Guards next x e (s.replaceAll read fun _ => new) :=
  h.replaceAll fun _ _ _ _ hr => .of_ends (hread.upTo hr) hnew hx

end Guards

/-! ## Taking constructs out -/

/-- Every construct among the pieces that is taken out begins where the bit is as good as clear, or is followed by none of
    the characters that matter when they come to stand behind the backslash in front of it. -/
def clean (next : Bool → Bool) (taken : α → Bool) (matters : List Char) : (e : Bool) → List (Piece α) → Bool
  | _, [] => true
  | e, .char c :: ps => clean next taken matters (behind next e [c]) ps
  | e, .hit a source :: ps =>
    (!taken a || next e == next false || (Piece.sources ps).head?.all (· ∉ matters)) &&
      clean next taken matters (behind next e source) ps

/-- No construct that is taken out of the text begins escaped, unless what follows it does not matter. -/
def TakenClean (next : Bool → Bool) (read : Reader α) (matters : List Char) (s : Text)
    (taken : α → Bool := fun _ => true) : Prop :=
  clean next taken matters false (Text.cut read s) = true

instance {read : Reader α} {matters : List Char} {taken : α → Bool} : Decidable (TakenClean next read matters s taken) :=
  inferInstanceAs (Decidable (_ = true))

/-- If only the character in front counts, a backslash in front of a construct does not matter. -/
theorem TakenClean.of_const (hnext : ∀ e, next e = next false) (read : Reader α) (matters : List Char) (s : Text) :
    TakenClean next read matters s := by
  have main (e : Bool) (ps : List (Piece α)) : clean next (fun _ => true) matters e ps = true := by
    induction ps generalizing e with
    | nil => rfl
    | cons p ps ih =>
      cases p with
      | char c => exact ih _
      | hit a source => simp [clean, hnext e, ih]
  exact main false _

theorem Takes.mem_cut {P : Text → Prop} {read : Reader α} (h : Takes P read) {a : α} {source : Text}
    (hp : Piece.hit a source ∈ Text.cut read s) : P source := by
  rcases Text.mem_cut hp with ⟨_, -, he⟩ | ⟨a, before, t, rest, he, -, hr⟩
  · cases he
  · cases he
    exact h.upTo hr

/-- A construct that begins with a backslash and does not end with one. -/
structure IsSlashed (source : Text) : Prop where
  first : source.head? = some '\\'
  last : EndsPlain source

/-- What is left of pieces when constructs are taken out. -/
def kept (taken : α → Bool) (ps : List (Piece α)) : Text := ps.flatMap fun
  | .char c => [c]
  | .hit a source => if taken a then [] else source

/-- The bits of what is left and of the text itself in front of pieces. They may differ only behind a construct that was
    taken out: there the text's own bit is clear, and none of the characters that matter follows. -/
def Agree (next : Bool → Bool) (matters : List Char) (ps : List (Piece α)) (e' e : Bool) : Prop :=
  e' = e ∨ e = false ∧ (next e' = next false ∨ (Piece.sources ps).head?.all (· ∉ matters) = true)

namespace Agree

variable {matters : List Char} {taken : α → Bool} {ps : List (Piece α)} {e' : Bool}

/-- The next character brings both bits together. -/
theorem char (hm : '\\' ∈ matters) (h : Agree next matters (.char c :: ps) e' e) :
    (decide (c = '\\') && next e') = (decide (c = '\\') && next e) := by
  rcases h with rfl | ⟨rfl, hnext | hc⟩
  · rfl
  · rw [hnext]
  · have hc : c ∉ matters := by simpa [Piece.sources, Piece.source] using hc
    rw [decide_eq_false fun he => hc (by rwa [he]), Bool.false_and, Bool.false_and]

/-- Behind a construct that is taken out the text's own bit is clear. -/
theorem hit {a : α} {source : Text} (hm : '\\' ∈ matters) (hsource : IsSlashed source) (ha : taken a = true)
    (hclean : clean next taken matters e (.hit a source :: ps) = true)
    (h : Agree next matters (.hit a source :: ps) e' e) : Agree next matters ps e' (behind next e source) := by
  obtain ⟨hstart, -⟩ := Bool.and_eq_true_iff.1 hclean
  refine .inr ⟨hsource.last.behind_eq next e, ?_⟩
  rcases h with rfl | ⟨rfl, hnext | hno⟩
  · simpa [ha] using hstart
  · exact .inl hnext
  · have hhead : (Piece.sources (.hit a source :: ps)).head? = some '\\' := by
      rw [Piece.sources, List.flatMap_cons, List.head?_append, Piece.source, hsource.first]
      rfl
    rw [hhead] at hno
    simp [hm] at hno

end Agree

namespace Guards

theorem kept {ps : List (Piece α)} {matters : List Char} (hm : '\\' ∈ matters)
    (hps : ∀ a source, Piece.hit a source ∈ ps → IsSlashed source)
    (hclean : clean next (fun _ => true) matters e ps = true) {e' : Bool} (he : Agree next matters ps e' e)
    (h : Guards next x e (Piece.sources ps)) : Guards next x e' (Galley.kept (fun _ => true) ps) := by
  induction ps generalizing e e' with
  | nil => exact nil
  | cons p ps ih =>
    have hps' := fun a source hp => hps a source (List.mem_cons_of_mem p hp)
    rw [Piece.sources, List.flatMap_cons] at h
    cases p with
    | char c =>
      obtain ⟨hhead, htail⟩ := cons_iff.1 h
      refine cons_iff.2 ⟨fun hc => ?_, by rw [he.char hm]; exact ih hps' hclean (.inl rfl) htail⟩
      rcases he with rfl | ⟨rfl, -⟩
      · exact hhead hc
      · cases hhead hc
    | hit a source =>
      exact ih hps' (Bool.and_eq_true_iff.1 hclean).2 (he.hit hm (hps a source List.mem_cons_self) rfl hclean)
        (append_iff.1 h).2

theorem removeAll {read : Reader α} {matters : List Char} (hm : '\\' ∈ matters) (hread : Takes IsSlashed read)
    (hclean : TakenClean next read matters s) (h : Guards next x false s) : Guards next x false (s.removeAll read) :=
  kept hm (fun a source hp => hread.mem_cut hp) hclean (.inl rfl) (by rwa [Text.sources_cut])

end Guards

end Galley
