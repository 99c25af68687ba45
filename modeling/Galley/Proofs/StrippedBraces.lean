import Galley.Extract.Strip
import Galley.Proofs.Backslashes
import Galley.Proofs.Commands
import Galley.Proofs.StageTrades
/-!
# Braces of stripped text

Braces are counted with a depth and the bit that makes the character behind a backslash inert (`depth`); a text is
paired if no brace is left over. A reference or a footnote makes way for its argument, which is read with depth counters, so the
count notices nothing (`depth_replace`). A command that is taken out leaves the count alone if its own braces are paired.
The length of a spacing command is not read with depth counters but up to the first closing brace: if it opens a group of its
own, the rest of it stays behind, and what is left is not paired (`paired_dropLayoutCommands_iff`).
-/

namespace Galley

/-! ## Depth -/

section Depth

variable {d n : Nat} {e : Bool} {s t : Text} {st : Nat × Bool}

/-- The depth behind a character, and whether the next one is inert; none if it closes what was not opened. -/
def depthStep (st : Nat × Bool) (c : Char) : Option (Nat × Bool) :=
  let bit := decide (c = '\\') && !st.2
  if st.2 then some (st.1, bit)
  else if c = '{' then some (st.1 + 1, bit)
  else if c = '}' then if st.1 = 0 then none else some (st.1 - 1, bit)
  else some (st.1, bit)

/-- The depth behind a text. -/
def depth (st : Nat × Bool) (s : Text) : Option (Nat × Bool) := s.foldlM depthStep st

/-- Every brace has its counterpart, but for those behind a backslash. -/
def Paired (s : Text) : Prop := (depth (0, false) s).map Prod.fst = some 0

instance (s : Text) : Decidable (Paired s) := inferInstanceAs (Decidable (_ = _))

@[simp] theorem depth_nil : depth st [] = some st := rfl

theorem depth_cons (c : Char) : depth st (c :: s) = (depthStep st c).bind (depth · s) := rfl

theorem depth_append : depth st (s ++ t) = (depth st s).bind (depth · t) := List.foldlM_append ..

theorem depthStep_plain {c : Char} (ho : c ≠ '{') (hc : c ≠ '}') : depthStep (d, e) c = some (d, decide (c = '\\') && !e) := by
  simp [depthStep, ho, hc]

theorem depth_plain (ho : '{' ∉ s) (hc : '}' ∉ s) : depth (d, e) s = some (d, behind not e s) := by
  induction s generalizing e with
  | nil => rfl
  | cons c s ih =>
    simp only [List.mem_cons, not_or] at ho hc
    rw [depth_cons, depthStep_plain (Ne.symm ho.1) (Ne.symm hc.1), Option.bind_some, ih ho.2 hc.2, behind_cons]

/-- A text without closing braces opens as many groups from every state. -/
theorem depth_open (hc : '}' ∉ s) (e : Bool) : ∃ j, ∀ d, depth (d, e) s = some (d + j, behind not e s) := by
  induction s generalizing e with
  | nil => exact ⟨0, fun _ => rfl⟩
  | cons c s ih =>
    simp only [List.mem_cons, not_or] at hc
    obtain ⟨j, hj⟩ := ih hc.2 (decide (c = '\\') && !e)
    have hstep (d : Nat) : depthStep (d, e) c =
        some (d + if e = false ∧ c = '{' then 1 else 0, decide (c = '\\') && !e) := by
      unfold depthStep
      grind
    refine ⟨(if e = false ∧ c = '{' then 1 else 0) + j, fun d => ?_⟩
    rw [depth_cons, hstep, Option.bind_some, hj, behind_cons, Nat.add_assoc]

theorem depthStep_bit {c : Char} {r : Nat × Bool} (h : depthStep (d, e) c = some r) : r.2 = (decide (c = '\\') && !e) := by
  unfold depthStep at h
  grind

theorem depth_bit {r : Nat × Bool} (h : depth (d, e) s = some r) : r.2 = behind not e s := by
  induction s generalizing d e with
  | nil =>
    cases h
    rfl
  | cons c s ih =>
    obtain ⟨⟨d', e'⟩, hstep, h⟩ := Option.bind_eq_some_iff.1 h
    rw [ih h, behind_cons, ← depthStep_bit hstep]

/-- Inside more groups nothing changes for a text that closes none of them. -/
theorem depthStep_add {c : Char} {r : Nat × Bool} (h : depthStep (d, e) c = some r) (n : Nat) :
    depthStep (d + n, e) c = some (r.1 + n, r.2) := by
  unfold depthStep at h ⊢
  grind

theorem depth_add {r : Nat × Bool} (h : depth (d, e) s = some r) (n : Nat) : depth (d + n, e) s = some (r.1 + n, r.2) := by
  induction s generalizing d e with
  | nil =>
    cases h
    rfl
  | cons c s ih =>
    obtain ⟨⟨d', e'⟩, hstep, h⟩ := Option.bind_eq_some_iff.1 h
    rw [depth_cons, depthStep_add hstep n, Option.bind_some]
    exact ih h

/-- The content of a brace group closes what it opens, and the brace behind it is not inert. -/
theorem depth_braceRest {a rest : Text} (h : Group.braceRest false d false s = some (a, rest)) (n : Nat) :
    depth (n + d, false) a = some (n, false) := by
  induction hlen : s.length using Nat.strongRecOn generalizing s d a with
  | ind k ih =>
    cases s with
    | nil => cases h
    | cons c s =>
      rw [List.length_cons] at hlen
      by_cases hc : c = '\\'
      · subst hc
        cases s with
        | nil => cases h
        | cons c s =>
          obtain ⟨b, hb, rfl⟩ := Group.keep_eq_some (h : Group.keep ['\\', c] (Group.braceRest false d false s) = _)
          rw [List.length_cons] at hlen
          simpa [depth_cons, depthStep] using ih s.length (by omega) hb rfl
      · rw [Group.braceRest_cons hc] at h
        have hstep (d : Nat) : depthStep (d, false) c = if c = '{' then some (d + 1, false)
            else if c = '}' then if d = 0 then none else some (d - 1, false) else some (d, false) := by
          simp [depthStep, hc]
        have htail {d : Nat} {b : Text} (hb : Group.braceRest false d false s = some (b, rest)) :
            depth (n + d, false) b = some (n, false) := ih s.length (by omega) hb rfl
        split at h
        · rename_i hopen
          obtain ⟨b, hb, rfl⟩ := Group.keep_eq_some h
          rw [List.singleton_append, depth_cons, hstep, if_pos hopen]
          exact htail hb
        · rename_i hopen
          split at h
          · rename_i hclose
            cases d with
            | zero =>
              cases h
              rfl
            | succ d =>
              obtain ⟨b, hb, rfl⟩ := Group.keep_eq_some h
              rw [List.singleton_append, depth_cons, hstep, if_neg hopen, if_pos hclose, if_neg (by omega)]
              exact htail hb
          · rename_i hclose
            obtain ⟨b, hb, rfl⟩ := Group.keep_eq_some h
            rw [List.singleton_append, depth_cons, hstep, if_neg hopen, if_neg hclose]
            exact htail hb

end Depth

/-! ## Taking constructs out -/

/-- From every state the text opens `j` groups more than it closes, closes none of its surroundings, and leaves no character
    inert. -/
def Opens (j : Nat) (x : Text) : Prop := ∀ d e, depth (d, e) x = some (d + j, false)

theorem Opens.paired_iff {j : Nat} {x : Text} (h : Opens j x) : Paired x ↔ j = 0 := by
  rw [Paired, h]
  simp

/-- A character that counts differently behind a backslash. -/
abbrev braceMarks : List Char := ['\\', '{', '}']

section Kept

variable {α : Type} {taken : α → Bool} {ps : List (Piece α)} {d f : Nat} {e e' b : Bool}

theorem Agree.depthStep {c : Char} (h : Agree not braceMarks (.char c :: ps) e' e) :
    depthStep (d, e') c = depthStep (d, e) c := by
  rcases h with rfl | ⟨rfl, hnext | hc⟩
  · rfl
  · rw [show e' = false by simpa using hnext]
  · have hc : c ∉ braceMarks := by simpa [Piece.sources, Piece.source] using hc
    simp only [List.mem_cons, List.not_mem_nil, or_false, not_or] at hc
    rw [depthStep_plain hc.2.1 hc.2.2, depthStep_plain hc.2.1 hc.2.2]
    simp [hc.1]

/-- A construct that stays begins with a backslash, so both readers stand alike in front of it. -/
theorem Agree.eq_of_hit {a : α} {source : Text} (hsource : IsSlashed source)
    (h : Agree not braceMarks (.hit a source :: ps) e' e) : e' = e := by
  rcases h with rfl | ⟨rfl, hnext | hno⟩
  · rfl
  · simpa using hnext
  · rw [Piece.sources, List.flatMap_cons, List.head?_append, Piece.source, hsource.first] at hno
    simp at hno

theorem depth_kept (hps : ∀ a source, Piece.hit a source ∈ ps → IsSlashed source ∧ (taken a = true → Opens 0 source))
    (hclean : clean not taken braceMarks e ps = true) (he : Agree not braceMarks ps e' e)
    (h : depth (d, e) (Piece.sources ps) = some (f, b)) : ∃ b', depth (d, e') (kept taken ps) = some (f, b') := by
  induction ps generalizing d e e' with
  | nil =>
    cases h
    exact ⟨e', rfl⟩
  | cons p ps ih =>
    have hps' := fun a source hp => hps a source (List.mem_cons_of_mem p hp)
    cases p with
    | char c =>
      obtain ⟨⟨d₁, e₁⟩, hstep, h⟩ := Option.bind_eq_some_iff.1 h
      have hbit : e₁ = behind not e [c] := depthStep_bit hstep
      have hkept : kept taken (.char c :: ps) = c :: kept taken ps := rfl
      rw [hkept, depth_cons, he.depthStep, hstep]
      exact ih hps' (by rw [hbit]; exact hclean) (.inl rfl) h
    | hit a source =>
      obtain ⟨hslashed, hopens⟩ := hps a source List.mem_cons_self
      have hclean' := (Bool.and_eq_true_iff.1 hclean).2
      have hkept : kept taken (.hit a source :: ps) = (if taken a then [] else source) ++ kept taken ps := rfl
      have hsources : Piece.sources (.hit a source :: ps) = source ++ Piece.sources ps := rfl
      rw [hsources, depth_append] at h
      by_cases ha : taken a = true
      · rw [hopens ha d e] at h
        rw [hkept, if_pos ha]
        have hclear := hslashed.last.behind_eq not e
        have hagree := he.hit List.mem_cons_self hslashed ha hclean
        rw [hclear] at hclean' hagree
        exact ih hps' hclean' hagree h
      · obtain rfl := he.eq_of_hit hslashed
        obtain ⟨⟨d₁, e₁⟩, hsource, h⟩ := Option.bind_eq_some_iff.1 h
        have hbit : e₁ = behind not e' source := depth_bit hsource
        rw [hkept, if_neg ha, depth_append, hsource]
        exact ih hps' (by rw [hbit]; exact hclean') (.inl rfl) h

/-- The other way round the text opens what is left opens, and what the constructs that were taken out leave open. -/
theorem depth_sources
    (hps : ∀ a source, Piece.hit a source ∈ ps → IsSlashed source ∧ (taken a = true → ∃ j, Opens j source))
    (hclean : clean not taken braceMarks e ps = true) (he : Agree not braceMarks ps e' e)
    (h : depth (d, e') (kept taken ps) = some (f, b)) (n : Nat) :
    ∃ j b', depth (d + n, e) (Piece.sources ps) = some (f + n + j, b') ∧
      (j = 0 ↔ ∀ a source, Piece.hit a source ∈ ps → taken a = true → Paired source) := by
  induction ps generalizing d e e' n with
  | nil =>
    cases h
    exact ⟨0, e, rfl, by simp⟩
  | cons p ps ih =>
    have hps' := fun a source hp => hps a source (List.mem_cons_of_mem p hp)
    cases p with
    | char c =>
      obtain ⟨⟨d₁, e₁⟩, hstep, h⟩ := Option.bind_eq_some_iff.1 (h : (Galley.depthStep (d, e') c).bind _ = _)
      rw [he.depthStep] at hstep
      have hbit : e₁ = behind not e [c] := depthStep_bit hstep
      obtain ⟨j, b', hdepth, hj⟩ := ih hps' (by rw [hbit]; exact hclean) (.inl rfl) h n
      refine ⟨j, b', ?_, by simpa using hj⟩
      have hsources : Piece.sources (.char c :: ps) = c :: Piece.sources ps := rfl
      rw [hsources, depth_cons, depthStep_add hstep n]
      exact hdepth
    | hit a source =>
      obtain ⟨hslashed, hopens⟩ := hps a source List.mem_cons_self
      have hclean' := (Bool.and_eq_true_iff.1 hclean).2
      have hkept : kept taken (.hit a source :: ps) = (if taken a then [] else source) ++ kept taken ps := rfl
      have hsources : Piece.sources (.hit a source :: ps) = source ++ Piece.sources ps := rfl
      rw [hkept] at h
      rw [hsources, depth_append]
      by_cases ha : taken a = true
      · rw [if_pos ha] at h
        obtain ⟨i, hi⟩ := hopens ha
        have hclear := hslashed.last.behind_eq not e
        have hagree := he.hit List.mem_cons_self hslashed ha hclean
        rw [hclear] at hclean' hagree
        obtain ⟨j, b', hdepth, hj⟩ := ih hps' hclean' hagree h (n + i)
        refine ⟨i + j, b', ?_, ?_⟩
        · rw [hi, Option.bind_some, Nat.add_assoc d, hdepth]
          congr 2
          omega
        · rw [Nat.add_eq_zero_iff, ← hi.paired_iff, hj]
          grind
      · rw [if_neg ha, depth_append] at h
        obtain rfl := he.eq_of_hit hslashed
        obtain ⟨⟨d₁, e₁⟩, hsource, h⟩ := Option.bind_eq_some_iff.1 h
        have hbit : e₁ = behind not e' source := depth_bit hsource
        obtain ⟨j, b', hdepth, hj⟩ := ih hps' (by rw [hbit]; exact hclean') (.inl rfl) h n
        refine ⟨j, b', ?_, ?_⟩
        · rw [depth_add hsource n]
          exact hdepth
        · grind

variable {read : Reader α} {s : Text}

theorem paired_kept
    (hps : ∀ a source, Piece.hit a source ∈ Text.cut read s → IsSlashed source ∧ (taken a = true → Opens 0 source))
    (hclean : TakenClean not read braceMarks s taken) : Paired (kept taken (Text.cut read s)) ↔ Paired s := by
  constructor
  · intro hkept
    obtain ⟨⟨_, b'⟩, hleft, rfl⟩ := Option.map_eq_some_iff.1 hkept
    obtain ⟨j, b'', hsources, hj⟩ :=
      depth_sources (fun a source hp => (hps a source hp).imp_right fun h ha => ⟨0, h ha⟩) hclean (.inl rfl) hleft 0
    rw [Text.sources_cut, hj.2 fun a source hp ha => ((hps a source hp).2 ha).paired_iff.2 rfl] at hsources
    rw [Paired, hsources]
    rfl
  · intro hs
    obtain ⟨⟨_, b⟩, hdepth, rfl⟩ := Option.map_eq_some_iff.1 hs
    obtain ⟨b', hleft⟩ := depth_kept hps hclean (.inl rfl) (by rwa [Text.sources_cut])
    rw [Paired, hleft]
    rfl

theorem paired_kept_iff
    (hps : ∀ a source, Piece.hit a source ∈ Text.cut read s → IsSlashed source ∧ (taken a = true → ∃ j, Opens j source))
    (hclean : TakenClean not read braceMarks s taken) (hs : Paired s) :
    Paired (kept taken (Text.cut read s)) ↔
      ∀ a source, Piece.hit a source ∈ Text.cut read s → taken a = true → Paired source := by
  constructor
  · intro hkept
    obtain ⟨⟨_, b⟩, hdepth, rfl⟩ := Option.map_eq_some_iff.1 hs
    obtain ⟨⟨_, b'⟩, hleft, rfl⟩ := Option.map_eq_some_iff.1 hkept
    obtain ⟨j, b'', hsources, hj⟩ := depth_sources hps hclean (.inl rfl) hleft 0
    rw [Text.sources_cut, hdepth] at hsources
    exact hj.1 (by simpa using (congrArg Prod.fst (Option.some.inj hsources)).symm)
  · intro hpaired
    refine (paired_kept (fun a source hp => ⟨(hps a source hp).1, fun ha => ?_⟩) hclean).2 hs
    obtain ⟨j, hj⟩ := (hps a source hp).2 ha
    rwa [hj.paired_iff.1 (hpaired a source hp ha)] at hj

end Kept

/-! ## Commands and their arguments -/

namespace Group

theorem read?_brace {s a rest : Text} (h : read? .brace s = some (a, rest)) :
    ∃ gap t, s = gap ++ '{' :: t ∧ (∀ c ∈ gap, isGap c = true) ∧ braceRest false 0 false t = some (a, rest) := by
  simp only [read?, read] at h
  split at h
  · rename_i heq
    split at heq
    · cases heq
      cases h
    · rename_i c t ht
      split at heq
      · rename_i hc
        split at heq
        · rename_i r hinside
          cases heq
          cases h
          refine ⟨s.takeWhile isGap, t, ?_, fun c hc => List.all_eq_true.1 List.all_takeWhile c hc, hinside⟩
          have hopener : c = '{' := hc
          rw [← hopener, ← ht, List.takeWhile_append_dropWhile]
        · cases heq
      · cases heq
        cases h
  · cases h

end Group

/-- Without braces, and no backslash at its end. -/
structure IsMute (t : Text) : Prop where
  opener : '{' ∉ t
  closer : '}' ∉ t
  last : EndsPlain t

theorem IsMute.depth_eq {t : Text} (h : IsMute t) (d : Nat) (e : Bool) : depth (d, e) t = some (d, false) := by
  rw [depth_plain h.opener h.closer, h.last.behind_eq]

theorem IsMute.append {p g : Text} (hp : IsMute p) (hg : ∀ c ∈ g, c ∉ braceMarks) : IsMute (p ++ g) := by
  have hmem {c : Char} (hc : c ∈ braceMarks) : c ∉ g := fun h => hg c h hc
  refine ⟨?_, ?_, ?_⟩
  · simpa [hmem (c := '{') (by simp)] using hp.opener
  · simpa [hmem (c := '}') (by simp)] using hp.closer
  · rcases List.eq_nil_or_concat g with rfl | ⟨g, c, rfl⟩
    · rw [List.append_nil]
      exact hp.last
    · exact ⟨p ++ g, c, by simp, fun hc => hmem (c := '\\') (by simp) (by simp [hc])⟩

/-- A group whose content is paired, behind a text without braces. -/
theorem opens_group {p a : Text} (hp : IsMute p) (ha : ∀ n, depth (n, false) a = some (n, false)) :
    Opens 0 (p ++ '{' :: (a ++ ['}'])) := by
  intro d e
  have hopen : depthStep (d, false) '{' = some (d + 1, false) := rfl
  have hclose : depthStep (d + 1, false) '}' = some (d, false) := by simp [depthStep]
  rw [depth_append, hp.depth_eq, Option.bind_some, depth_cons, hopen, Option.bind_some, depth_append, ha, Option.bind_some,
    depth_cons, hclose]
  rfl

theorem slashed_group {p a : Text} (hp : p.head? = some '\\') : IsSlashed (p ++ '{' :: (a ++ ['}'])) :=
  ⟨by rw [List.head?_append, hp]; rfl, p ++ '{' :: a, '}', by simp, by decide⟩

/-- White space at the edges of an argument holds no brace, and the backslash of an inert blank may come to stand at the end. -/
theorem depth_strip {a : Text} {n : Nat} (h : depth (n, false) a = some (n, false)) :
    ∃ b, depth (n, false) (Text.strip a) = some (n, b) := by
  obtain ⟨lead, trail, hsplit, hlead, htrail⟩ := Text.exists_strip a
  have hmute {u : Text} (hu : ∀ c ∈ u, isBlank c = true) : '{' ∉ u ∧ '}' ∉ u :=
    ⟨fun hmem => absurd (hu _ hmem) (by decide), fun hmem => absurd (hu _ hmem) (by decide)⟩
  have hclear : behind not false lead = false := by
    rcases List.eq_nil_or_concat lead with rfl | ⟨u, c, rfl⟩
    · rfl
    · refine EndsPlain.behind_eq ⟨u, c, by simp, fun hc => ?_⟩ not false
      exact absurd (hlead '\\' (by simp [hc])) (by decide)
  generalize Text.strip a = core at hsplit ⊢
  subst hsplit
  rw [List.append_assoc, depth_append, depth_plain (hmute hlead).1 (hmute hlead).2, hclear, Option.bind_some, depth_append] at h
  obtain ⟨⟨f, b⟩, hcore, h⟩ := Option.bind_eq_some_iff.1 h
  rw [depth_plain (hmute htrail).1 (hmute htrail).2] at h
  exact ⟨b, by rw [hcore, (Prod.mk.inj (Option.some.inj h)).1]⟩

/-- An argument between two signs. -/
theorem opens_between {left right a : Text} (hleft : IsMute left) (hright : IsMute right)
    (ha : ∀ n, depth (n, false) a = some (n, false)) : Opens 0 (left ++ Text.strip a ++ right) := by
  intro d e
  obtain ⟨b, hb⟩ := depth_strip (ha d)
  rw [List.append_assoc, depth_append, hleft.depth_eq, Option.bind_some, depth_append, hb, Option.bind_some, hright.depth_eq]
  rfl

namespace Command

variable {name s rest : Text} {before : Option Char}

/-- A command that is read with its argument. -/
theorem one_of_withArguments {args : Arguments} (hname : IsMute ('\\' :: name))
    (h : withArguments name 1 false before s = some (some args, rest)) :
    ∃ p, s = p ++ '{' :: (args.first ++ ['}']) ++ rest ∧ p.head? = some '\\' ∧ IsMute p ∧
      ∀ n, depth (n, false) args.first = some (n, false) := by
  obtain ⟨u, hu, he⟩ := Option.map_eq_some_iff.1 h
  split at he
  · rename_i args' r hread
    cases he
    obtain ⟨gap, t, rfl, hgap, ht⟩ := Group.read?_brace (Arguments.read?_one hread)
    refine ⟨'\\' :: name ++ gap, ?_, rfl, hname.append fun c hc hmark => ?_, depth_braceRest ht⟩
    · rw [Command.after?_eq hu, Group.braceRest_eq ht]
      simp
    · exact absurd (hgap c hc) ((by decide : ∀ c ∈ braceMarks, ¬isGap c = true) c hmark)
  · cases he

/-- With its argument or bare, a command begins with a backslash and does not end with one. -/
theorem slashed_withArguments {args : Option Arguments} (hname : IsMute ('\\' :: name))
    (h : withArguments name 1 false before s = some (args, rest)) :
    IsSlashed (s.upTo rest) ∧ (args.isSome = true → Opens 0 (s.upTo rest)) := by
  cases args with
  | some args =>
    obtain ⟨p, rfl, hhead, hp, ha⟩ := one_of_withArguments hname h
    rw [Text.upTo_append_rest]
    exact ⟨slashed_group hhead, fun _ => opens_group hp ha⟩
  | none =>
    obtain ⟨u, hu, he⟩ := Option.map_eq_some_iff.1 h
    split at he
    · cases he
    · cases he
      rw [Command.after?_eq hu, ← List.cons_append, Text.upTo_append_rest]
      exact ⟨⟨rfl, hname.last⟩, fun ha => by cases ha⟩

/-- A command makes way for its argument. -/
theorem depth_replace {left right : Text} (hname : IsMute ('\\' :: name)) (hleft : IsMute left) (hright : IsMute right)
    (st : Nat × Bool) (s : Text) :
    depth st (replace name 1 (fun args => left ++ Text.strip args.first ++ right) s) = depth st s := by
  have main (g : Piece (Option Arguments) → Text) (ps : List (Piece (Option Arguments)))
      (hg : ∀ p ∈ ps, ∀ st, depth st (g p) = depth st p.source) (st : Nat × Bool) :
      depth st (ps.flatMap g) = depth st (Piece.sources ps) := by
    induction ps generalizing st with
    | nil => rfl
    | cons p ps ih =>
      obtain ⟨hp, hps⟩ := List.forall_mem_cons.1 hg
      rw [Piece.sources, List.flatMap_cons, List.flatMap_cons, depth_append, depth_append, hp]
      exact Option.bind_congr fun st _ => ih hps st
  rw [replace, main _ _ (fun p hp st => ?_), Text.sources_cut]
  rcases Text.mem_cut hp with ⟨c, -, rfl⟩ | ⟨args, before, t, rest, rfl, -, hr⟩
  · rfl
  · cases args with
    | none => rfl
    | some args =>
      obtain ⟨p, rfl, -, hp, ha⟩ := one_of_withArguments hname hr
      rw [Text.upTo_append_rest]
      exact (opens_between hleft hright ha st.1 st.2).trans (opens_group hp ha st.1 st.2).symm

/-- What is left when a command is dropped with its argument. -/
theorem replace_eq_kept (name s : Text) :
    replace name 1 (fun _ => []) s = kept Option.isSome (Text.cut (withArguments name 1 false) s) := by
  refine List.flatMap_congr fun p _ => ?_
  match p with
  | .char _ => rfl
  | .hit none _ => rfl
  | .hit (some _) _ => rfl

end Command

/-! ## The commands that only concern layout -/

namespace Extract.Strip

open Command (depth_replace)

/-- The spacing commands that are taken out of a text, as they are written. -/
def spacings (s : Text) : List Text :=
  (Text.cut spacing (s.removeAll (Command.readerOf droppedNames))).filterMap fun
    | .char _ => none
    | .hit _ source => some source

/-- The text when labels are dropped. -/
def withLabels (s : Text) : Text := (s.removeAll (Command.readerOf droppedNames)).removeAll spacing

/-- No command that is taken out begins behind an odd run of backslashes where a brace or another backslash follows it. -/
structure Detached (s : Text) : Prop where
  dropped : TakenClean not (Command.readerOf droppedNames) braceMarks s
  spacings : TakenClean not spacing braceMarks (s.removeAll (Command.readerOf droppedNames))
  labels : TakenClean not (Command.withArguments "label" 1 false) braceMarks (withLabels s) Option.isSome

instance (s : Text) : Decidable (Detached s) :=
  decidable_of_iff (_ ∧ _ ∧ _) ⟨fun ⟨h₁, h₂, h₃⟩ => ⟨h₁, h₂, h₃⟩, fun ⟨h₁, h₂, h₃⟩ => ⟨h₁, h₂, h₃⟩⟩

/-- References and footnotes make way for their arguments. -/
def bracketReferences (s : Text) : Text :=
  Command.replace "footnote" 1 (fun a => " (" ++ Text.strip a.first ++ ")")
    (Command.replace "autoref" 1 (fun a => "[" ++ Text.strip a.first ++ "]")
      (Command.replace "pageref" 1 (fun a => "[" ++ Text.strip a.first ++ "]")
        (Command.replace "ref" 1 (fun a => "[" ++ Text.strip a.first ++ "]")
          (Command.replace "eqref" 1 (fun a => "(" ++ Text.strip a.first ++ ")") s))))

theorem dropLayoutCommands_eq (s : Text) :
    dropLayoutCommands s = bracketReferences (Command.replace "label" 1 (fun _ => []) (withLabels s)) := rfl

theorem mute_of_all {t : Text} (h : (t.all (· ∉ ['{', '}']) && t.getLast?.any (· ≠ '\\')) = true) : IsMute t := by
  obtain ⟨hall, hlast⟩ := Bool.and_eq_true_iff.1 h
  have hne (c : Char) (hc : c ∈ t) : c ∉ ['{', '}'] := by simpa using List.all_eq_true.1 hall c hc
  exact ⟨fun hmem => hne _ hmem (by simp), fun hmem => hne _ hmem (by simp), .of_getLast? hlast⟩

theorem paired_bracketReferences_iff (s : Text) : Paired (bracketReferences s) ↔ Paired s := by
  have hdepth (st : Nat × Bool) : depth st (bracketReferences s) = depth st s := by
    rw [bracketReferences, depth_replace (mute_of_all (by decide)) (mute_of_all (by decide)) (mute_of_all (by decide)),
      depth_replace (mute_of_all (by decide)) (mute_of_all (by decide)) (mute_of_all (by decide)),
      depth_replace (mute_of_all (by decide)) (mute_of_all (by decide)) (mute_of_all (by decide)),
      depth_replace (mute_of_all (by decide)) (mute_of_all (by decide)) (mute_of_all (by decide)),
      depth_replace (mute_of_all (by decide)) (mute_of_all (by decide)) (mute_of_all (by decide))]
  rw [Paired, hdepth, Paired]

/-- A bare command holds no braces. -/
theorem opens_dropped : Takes (fun x => IsSlashed x ∧ Opens 0 x) (Command.readerOf droppedNames) := by
  intro before s a rest h
  obtain ⟨name, hname, h⟩ := List.exists_of_findSome?_eq_some h
  obtain ⟨r, hr, he⟩ := Option.map_eq_some_iff.1 h
  cases he
  have hmute : IsMute ('\\' :: a) := mute_of_all ((by decide : ∀ name ∈ droppedNames,
    ((('\\' :: name).all (· ∉ ['{', '}'])) && ('\\' :: name).getLast?.any (· ≠ '\\')) = true) a hname)
  exact ⟨'\\' :: a, Command.after?_eq hr, ⟨rfl, hmute.last⟩, hmute.depth_eq⟩

/-- A group up to the first closing brace. -/
theorem opens_closedBy {p t : Text} (hp : IsMute p) (ht : '}' ∉ t) : ∃ j, Opens j (p ++ '{' :: (t ++ ['}'])) := by
  obtain ⟨j, hj⟩ := depth_open ht false
  have hopen (d : Nat) : depthStep (d, false) '{' = some (d + 1, false) := rfl
  have hclose (d : Nat) : depthStep (d + 1 + j, behind not false t) '}' =
      some (d + if behind not false t then 1 + j else j, false) := by
    unfold depthStep
    grind
  refine ⟨if behind not false t then 1 + j else j, fun d e => ?_⟩
  rw [depth_append, hp.depth_eq, Option.bind_some, depth_cons, hopen, Option.bind_some, depth_append, hj, Option.bind_some,
    depth_cons, hclose]
  rfl

/-- The length of a spacing command holds no closing brace, so it closes nothing, and the brace that ends it may be inert. -/
theorem opens_spacing : Takes (fun x => IsSlashed x ∧ ∃ j, Opens j x) spacing := by
  intro before s a rest h
  simp only [spacing, Option.bind_eq_bind, Option.bind_eq_some_iff] at h
  obtain ⟨t, ht, u, hu, ⟨v, w⟩, hv, h⟩ := h
  cases h
  obtain ⟨p, rfl, hhead, hp⟩ : ∃ p, s = p ++ t ∧ p.head? = some '\\' ∧ IsMute p := by
    simp only [HOrElse.hOrElse, OrElse.orElse, Option.orElse] at ht
    split at ht
    · rename_i r hr
      cases ht
      exact ⟨_, Text.after?_eq_some_iff.1 hr, rfl, mute_of_all (by decide)⟩
    · exact ⟨_, Text.after?_eq_some_iff.1 ht, rfl, mute_of_all (by decide)⟩
  obtain ⟨star, hstar, hmark⟩ : ∃ star, t = star ++ (Text.after? "*" t).getD t ∧ ∀ c ∈ star, c ∉ braceMarks := by
    cases hafter : Text.after? "*" t with
    | none => exact ⟨[], rfl, by simp⟩
    | some r => exact ⟨"*".toList, Text.after?_eq_some_iff.1 hafter, by decide⟩
  obtain ⟨gap, hgap, hblank⟩ := Text.dropWhile_eq isBlank ((Text.after? "*" t).getD t)
  have hv' : '}' ∉ v := by
    have htake : v = u.takeWhile (· ≠ '}') := by
      simp only [Text.closedBy] at hv
      split at hv
      · exact (Prod.mk.inj (Option.some.inj hv)).1.symm
      · cases hv
    rw [htake]
    exact fun hmem => absurd (List.all_eq_true.1 List.all_takeWhile _ hmem) (by decide)
  refine ⟨(p ++ (star ++ gap)) ++ '{' :: (v ++ ['}']), ?_, slashed_group ?_, opens_closedBy (hp.append fun c hc => ?_) hv'⟩
  · rw [hstar, hgap, Text.after?_eq_some_iff.1 hu, Text.closedBy_eq hv]
    simp
  · rw [List.head?_append, hhead]
    rfl
  · rcases List.mem_append.1 hc with hc | hc
    · exact hmark c hc
    · exact fun hmem => absurd (hblank c hc) ((by decide : ∀ c ∈ braceMarks, ¬isBlank c = true) c hmem)

/-- Stripping keeps paired braces paired just if the braces of every spacing command are paired on their own. -/
theorem paired_dropLayoutCommands_iff {s : Text} (hs : Paired s) (hdetached : Detached s) :
    Paired (dropLayoutCommands s) ↔ ∀ x ∈ spacings s, Paired x := by
  have hdropped : Paired (s.removeAll (Command.readerOf droppedNames)) :=
    (paired_kept (fun a source hp => (opens_dropped.mem_cut hp).imp_right fun h _ => h) hdetached.dropped).2 hs
  have hspacings : Paired (withLabels s) ↔ ∀ x ∈ spacings s, Paired x := by
    refine (paired_kept_iff (fun a source hp => (opens_spacing.mem_cut hp).imp_right fun h _ => h) hdetached.spacings
      hdropped).trans ?_
    simp only [spacings, List.mem_filterMap]
    constructor
    · rintro h x ⟨p, hp, hx⟩
      cases p with
      | char c => cases hx
      | hit a source =>
        cases hx
        exact h a _ hp trivial
    · exact fun h a source hp _ => h source ⟨.hit a source, hp, rfl⟩
  have hlabels : Paired (Command.replace "label" 1 (fun _ => []) (withLabels s)) ↔ Paired (withLabels s) := by
    rw [Command.replace_eq_kept]
    refine paired_kept (fun a source hp => ?_) hdetached.labels
    rcases Text.mem_cut hp with ⟨_, -, he⟩ | ⟨a, before, t, rest, he, -, hr⟩
    · cases he
    · cases he
      exact Command.slashed_withArguments (mute_of_all (by decide)) hr
  rw [dropLayoutCommands_eq, paired_bracketReferences_iff, hlabels, hspacings]

/-- Labels and references inside each other, a length, and page breaks. -/
def nestedReferences : Text :=
  "\\section\x7bA\\label\x7ba\x7bb\x7d\x7d\x7d\\newpage see \\ref\x7bx\x7by\x7d\x7d\\vspace*\x7b2cm\x7d\\footnote\x7bas \\eqref\x7be\x7d\x7d \\\\"

theorem nestedReferences_paired : Paired nestedReferences ∧ Detached nestedReferences ∧
    (∀ x ∈ spacings nestedReferences, Paired x) ∧ Paired (dropLayoutCommands nestedReferences) := by
  have hpaired : Paired nestedReferences := by decide +kernel
  have hdetached : Detached nestedReferences := by decide +kernel
  have hspacings : ∀ x ∈ spacings nestedReferences, Paired x := by decide +kernel
  exact ⟨hpaired, hdetached, hspacings, (paired_dropLayoutCommands_iff hpaired hdetached).2 hspacings⟩

/-- The first closing brace ends a length. -/
theorem groupInLength_cut : Paired "\\vspace\x7ba\x7bb\x7dc\x7d" ∧ ¬Paired (dropLayoutCommands "\\vspace\x7ba\x7bb\x7dc\x7d") := by
  decide +kernel

end Extract.Strip

end Galley
