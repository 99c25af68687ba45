import Galley.Text.Cut
/-!
# What cutting keeps

The pieces of a cut are the text again (`sources_cut`), and a reader that finds nothing in a text
leaves it as it is (`Misses`).
-/

namespace Galley

/-- Decided on the text, not on all characters. -/
instance {p : Char → Prop} [DecidablePred p] (s : Text) : Decidable (∀ c ∈ s, p c) :=
  List.decidableBAll p s

variable {α : Type} {read : Reader α}

namespace Text

/-! ## Beginnings -/

theorem after?_eq_some_iff {p s r : Text} : after? p s = some r ↔ s = p ++ r := by
  induction p generalizing s with
  | nil => simp [after?]
  | cons a p ih =>
    cases s with
    | nil => simp [after?]
    | cons c s =>
      by_cases h : a = c
      · simp [after?, h, ih]
      · simp [after?, h, Ne.symm h]

@[simp] theorem after?_append (p r : Text) : after? p (p ++ r) = some r := after?_eq_some_iff.2 rfl

/-- A word is found at the head of a text if it is found in front of a character that it does not have. -/
theorem after?_append_of_head {p rest : Text} (h : ∀ c ∈ rest.head?, c ∉ p) (s : Text) :
    after? p (s ++ rest) = (after? p s).map (· ++ rest) := by
  induction p generalizing s with
  | nil => rfl
  | cons d p ih =>
    have hp : ∀ c ∈ rest.head?, c ∉ p := fun c hc hm => h c hc (List.mem_cons_of_mem d hm)
    cases s with
    | nil =>
      cases rest with
      | nil => rfl
      | cons c rest =>
        have hne : d ≠ c := fun he => h c rfl (he ▸ List.mem_cons_self)
        exact if_neg hne
    | cons c s =>
      by_cases he : d = c
      · simp only [List.cons_append, after?, he, if_true, ih hp s]
      · simp only [List.cons_append, after?, he, if_false, Option.map_none]

theorem afterCaseless?_eq_some {p s r : Text} (h : afterCaseless? p s = some r) :
    ∃ q, s = q ++ r ∧ q.map foldChar = p := by
  induction p generalizing s with
  | nil => exact ⟨[], by simpa [afterCaseless?] using h, rfl⟩
  | cons a p ih =>
    cases s with
    | nil => simp [afterCaseless?] at h
    | cons c s =>
      simp only [afterCaseless?] at h
      split at h
      · rename_i ha
        obtain ⟨q, rfl, rfl⟩ := ih h
        exact ⟨c :: q, rfl, by simp [ha]⟩
      · cases h

/-- A run of characters that are passed over and what stands behind it. -/
theorem dropWhile_eq (p : Char → Bool) (s : Text) :
    ∃ gap, s = gap ++ s.dropWhile p ∧ ∀ c ∈ gap, p c = true :=
  ⟨s.takeWhile p, (List.takeWhile_append_dropWhile).symm, fun _ hc => List.all_eq_true.1 List.all_takeWhile _ hc⟩

/-- What stands behind a run of characters begins with another one. -/
theorem head_dropWhile {p : Char → Bool} {s rest : Text} {c : Char} (h : s.dropWhile p = c :: rest) : p c = false := by
  have hhead := List.head?_dropWhile_not p s
  rw [h] at hhead
  simpa using hhead

theorem closedBy_eq_some_iff {c : Char} {s t r : Text} : closedBy c s = some (t, r) ↔ c ∉ t ∧ s = t ++ c :: r := by
  constructor
  · intro h
    unfold closedBy at h
    split at h
    · rename_i x rest hd
      obtain ⟨rfl, rfl⟩ := Prod.mk.inj (Option.some.inj h)
      obtain rfl : x = c := by simpa using head_dropWhile hd
      refine ⟨fun hm => ?_, by rw [← hd, List.takeWhile_append_dropWhile]⟩
      have hne : decide (x ≠ x) = true := List.all_eq_true.1 (List.all_takeWhile (p := fun d => decide (d ≠ x))) x hm
      exact absurd rfl (of_decide_eq_true hne)
    · cases h
  · rintro ⟨ht, rfl⟩
    have hall : ∀ d ∈ t, decide (d ≠ c) = true := fun d hd => decide_eq_true fun he => ht (he ▸ hd)
    unfold closedBy
    rw [List.dropWhile_append_of_pos hall, List.takeWhile_append_of_pos hall]
    simp

/-- An ending of two texts is one of the second, or reaches into the first. -/
theorem suffix_append_cases {t x u : Text} (ht : t <:+ x ++ u) : t <:+ u ∨ ∃ y, y ≠ [] ∧ y <:+ x ∧ t = y ++ u := by
  induction x with
  | nil => exact .inl ht
  | cons c x ih =>
    rcases List.suffix_cons_iff.1 ht with rfl | ht
    · exact .inr ⟨c :: x, List.cons_ne_nil c x, List.suffix_refl _, rfl⟩
    · rcases ih ht with hu | ⟨y, hne, hy, rfl⟩
      · exact .inl hu
      · exact .inr ⟨y, hne, hy.trans (List.suffix_cons c x), rfl⟩

/-! ## Pieces and the text they come from -/

/-- Characters that a construct takes are passed over. -/
theorem cutFrom_drop (n : Nat) (before : Option Char) (s : Text) :
    ∃ b, cutFrom read n before s = cutFrom read 0 b (s.drop n) := by
  induction s generalizing n before with
  | nil => exact ⟨before, by cases n <;> simp [cutFrom]⟩
  | cons c s ih =>
    cases n with
    | zero => exact ⟨before, rfl⟩
    | succ n => exact ih n (some c)

/-- Characters at which nothing can be read stay characters. -/
theorem cutFrom_append {t : Text} (ht : ∀ c ∈ t, ∀ before s, read before (c :: s) = none) (s : Text)
    (before : Option Char) : ∃ b, cutFrom read 0 before (t ++ s) = t.map .char ++ cutFrom read 0 b s := by
  induction t generalizing before with
  | nil => exact ⟨before, rfl⟩
  | cons c t ih =>
    obtain ⟨b, hb⟩ := ih (fun x hx => ht x (List.mem_cons_of_mem c hx)) (some c)
    exact ⟨b, by simp only [List.cons_append, cutFrom, ht c List.mem_cons_self, hb, List.map_cons]⟩

theorem cutFrom_char {before : Option Char} {c : Char} {s : Text} (h : read before (c :: s) = none) :
    cutFrom read 0 before (c :: s) = .char c :: cutFrom read 0 (some c) s := by
  simp only [cutFrom, h]

theorem upTo_append_rest (x rest : Text) : upTo (x ++ rest) rest = x := by
  rw [upTo, List.length_append, Nat.add_sub_cancel, List.take_left]

/-- What is read is cut off as one piece. -/
theorem cutFrom_hit {before : Option Char} {c : Char} {t rest : Text} {a : α}
    (hr : read before (c :: (t ++ rest)) = some (a, rest)) :
    ∃ b, cutFrom read 0 before (c :: (t ++ rest)) = .hit a (c :: t) :: cutFrom read 0 b rest := by
  obtain ⟨b, hb⟩ := @cutFrom_drop α read t.length (some c) (t ++ rest)
  rw [List.drop_left] at hb
  have hsource : upTo (c :: (t ++ rest)) rest = c :: t := upTo_append_rest (c :: t) rest
  exact ⟨b, by simp only [cutFrom, hr, List.length_append, Nat.le_add_left, if_true, Nat.add_sub_cancel, hb, hsource]⟩

/-- A text is cut behind its first character or behind what is read at it. -/
theorem cutFrom_cons (read : Reader α) (before : Option Char) (c : Char) (s : Text) :
    cutFrom read 0 before (c :: s) = .char c :: cutFrom read 0 (some c) s ∨
      ∃ a rest, read before (c :: s) = some (a, rest) ∧ rest.length ≤ s.length ∧
        (rest <:+ c :: s → ∃ b, cutFrom read 0 before (c :: s) = .hit a (upTo (c :: s) rest) :: cutFrom read 0 b rest) := by
  cases hr : read before (c :: s) with
  | none => exact .inl (by simp only [cutFrom, hr])
  | some r =>
    obtain ⟨a, rest⟩ := r
    by_cases hle : rest.length ≤ s.length
    · refine .inr ⟨a, rest, rfl, hle, fun hsuffix => ?_⟩
      obtain ⟨x, hx⟩ := hsuffix
      cases x with
      | nil =>
        rw [← List.nil_append rest, hx, List.length_cons] at hle
        omega
      | cons d t =>
        rw [List.cons_append] at hx
        obtain ⟨rfl, rfl⟩ := List.cons.inj hx
        have hsource : upTo (d :: (t ++ rest)) rest = d :: t := upTo_append_rest (d :: t) rest
        rw [hsource]
        exact cutFrom_hit hr
    · exact .inl (by simp only [cutFrom, hr, hle, if_false])

theorem upTo_append_drop (s rest : Text) : upTo s rest ++ s.drop (s.length - rest.length) = s :=
  List.take_append_drop _ s

theorem flatten_map_singleton (s : Text) : (s.map fun c => [c]).flatten = s := by
  rw [← List.flatMap_def]
  exact List.flatMap_singleton' s

theorem sources_cutFrom (n : Nat) (before : Option Char) (s : Text) :
    Piece.sources (cutFrom read n before s) = s.drop n := by
  induction s generalizing n before with
  | nil => cases n <;> simp [cutFrom, Piece.sources]
  | cons c s ih =>
    cases n with
    | succ n => exact ih n (some c)
    | zero =>
      simp only [cutFrom]
      split
      · simpa [Piece.sources, Piece.source] using ih 0 (some c)
      · rename_i a rest _
        split
        · rename_i hle
          have h := ih (s.length - rest.length) (some c)
          simp only [Piece.sources, List.flatMap_cons, Piece.source] at h ⊢
          rw [h, List.drop_zero]
          have hs := upTo_append_drop (c :: s) rest
          rwa [List.length_cons, Nat.succ_sub hle, List.drop_succ_cons] at hs
        · simpa [Piece.sources, Piece.source] using ih 0 (some c)

theorem sources_cut (s : Text) : Piece.sources (cut read s) = s := sources_cutFrom 0 none s

/-- What replacing leaves comes from the text or from what is put in. -/
theorem mem_replaceAll {f : α → Text} {s : Text} {c : Char}
    (h : c ∈ replaceAll read f s) : c ∈ s ∨ ∃ a, c ∈ f a := by
  rw [replaceAll, List.mem_flatMap] at h
  obtain ⟨p, hp, hc⟩ := h
  cases p with
  | char x =>
    refine .inl ?_
    rw [← @sources_cut _ read s, Piece.sources, List.mem_flatMap]
    exact ⟨_, hp, hc⟩
  | hit a source => exact .inr ⟨a, hc⟩

/-! ## Readers that find nothing -/

/-- The reader finds nothing at any place of the text. -/
def Misses (read : Reader α) (s : Text) : Prop := ∀ before t, t <:+ s → read before t = none

namespace Misses

variable {s : Text}

theorem of_suffix {t : Text} (h : Misses read s) (ht : t <:+ s) : Misses read t :=
  fun before _ hu => h before _ (hu.trans ht)

theorem cutFrom_eq (h : Misses read s) (before : Option Char) : cutFrom read 0 before s = s.map .char := by
  induction s generalizing before with
  | nil => rfl
  | cons c s ih =>
    simp only [cutFrom, h before _ (List.suffix_refl _), List.map_cons, ih (h.of_suffix (List.suffix_cons c s))]

theorem cut_eq (h : Misses read s) : cut read s = s.map .char := h.cutFrom_eq none

theorem replaceAll_eq (h : Misses read s) (f : α → Text) : replaceAll read f s = s := by
  rw [replaceAll, h.cut_eq, List.flatMap_map]
  exact List.flatMap_singleton' s

theorem removeAll_eq (h : Misses read s) : removeAll read s = s := h.replaceAll_eq _

theorem readAll_eq (h : Misses read s) : readAll read s = [] := by
  rw [readAll, h.cut_eq, List.filterMap_map]
  exact List.filterMap_eq_nil_iff.2 fun _ _ => rfl

theorem findFrom_eq (h : Misses read s) (before : Option Char) : findFrom read before s = none := by
  induction s generalizing before with
  | nil => rfl
  | cons c s ih =>
    simp only [findFrom, h before _ (List.suffix_refl _), ih (h.of_suffix (List.suffix_cons c s)), Option.map_none]

theorem find?_eq (h : Misses read s) : find? read s = none := h.findFrom_eq none

theorem occurs_eq (h : Misses read s) : occurs read s = false := by rw [occurs, h.find?_eq]; rfl

theorem lastHit?_map_char (t : Text) : lastHit? (t.map (Piece.char (α := α))) = none := by
  induction t with
  | nil => rfl
  | cons c t ih => simp only [List.map_cons, lastHit?, ih]

theorem findLast?_eq (h : Misses read s) : findLast? read s = none := by
  rw [findLast?, h.cut_eq, lastHit?_map_char]

theorem sections_cut (h : Misses read s) : sections (cut read s) = (s, []) := by
  rw [h.cut_eq]
  clear h
  induction s with
  | nil => rfl
  | cons c s ih => simp only [List.map_cons, sections, ih]

/-- Work on the pieces that keeps characters does nothing where there is nothing else. -/
theorem mapM_cut {m : Type → Type} [Monad m] [LawfulMonad m] (h : Misses read s) (f : Piece α → m Text)
    (hf : ∀ c, f (.char c) = pure [c]) : (cut read s).mapM f = pure (s.map fun c => [c]) := by
  rw [h.cut_eq]
  clear h
  induction s with
  | nil => simp
  | cons c s ih => simp only [List.map_cons, List.mapM_cons, hf, pure_bind, ih]

theorem replaceAllM_eq {m : Type → Type} [Monad m] [LawfulMonad m] (h : Misses read s) (f : α → m Text) :
    replaceAllM read f s = pure s := by
  refine (congrArg (· >>= fun parts => pure parts.flatten) (h.mapM_cut (m := m) _ ?_)).trans ?_
  · exact fun _ => rfl
  · rw [pure_bind, flatten_map_singleton]

end Misses

/-- What is read behind a text in which nothing begins is found first. -/
theorem findFrom_join {m s rest : Text} {a : α} (hm : ∀ b u, u <:+ m → u ≠ [] → read b (u ++ s) = none)
    (hs : ∀ b, read b s = some (a, rest)) (hne : s ≠ []) (before : Option Char) :
    findFrom read before (m ++ s) = some ⟨m, a, upTo s rest, rest⟩ := by
  induction m generalizing before with
  | nil =>
    obtain ⟨c, s, rfl⟩ := List.exists_cons_of_ne_nil hne
    rw [List.nil_append, findFrom, hs]
  | cons c m ih =>
    have hnone := hm before (c :: m) (List.suffix_refl _) (by simp)
    rw [List.cons_append] at hnone ⊢
    rw [findFrom, hnone, ih fun b u hu => hm b u (hu.trans (List.suffix_cons c m))]
    rfl

/-! ## Readers that do not look back -/

/-- What the reader reads does not depend on the character before. -/
def Forward (read : Reader α) : Prop := ∀ b b' s, read b s = read b' s

namespace Forward

theorem cutFrom_eq (h : Forward read) (n : Nat) (b b' : Option Char) (s : Text) :
    cutFrom read n b s = cutFrom read n b' s := by
  cases s with
  | nil => cases n <;> rfl
  | cons c s =>
    cases n with
    | zero => simp only [cutFrom, h b b']
    | succ n => rfl

theorem readAll_cons (h : Forward read) {c : Char} {s : Text} (hr : read none (c :: s) = none) :
    readAll read (c :: s) = readAll read s := by
  simp only [readAll, cut, cutFrom, hr, h.cutFrom_eq 0 (some c) none]
  rfl

/-- What is read at the head of a text is cut off first. -/
theorem cut_hit (h : Forward read) {c : Char} {s t rest : Text} {a : α}
    (hr : read none (c :: s) = some (a, rest)) (hs : s = t ++ rest) :
    cut read (c :: s) = .hit a (c :: t) :: cut read rest := by
  subst hs
  obtain ⟨b, hb⟩ := cutFrom_hit hr
  rw [cut, hb, h.cutFrom_eq 0 b none, cut]

theorem cut_cons (h : Forward read) {c : Char} {s : Text} (hr : read none (c :: s) = none) :
    cut read (c :: s) = .char c :: cut read s := by
  simp only [cut, cutFrom, hr, h.cutFrom_eq 0 (some c) none]

theorem replaceAll_cons (h : Forward read) {c : Char} {s : Text} (hr : read none (c :: s) = none) (f : α → Text) :
    replaceAll read f (c :: s) = c :: replaceAll read f s := by
  simp only [replaceAll, h.cut_cons hr, List.flatMap_cons, List.singleton_append]

theorem replaceAll_hit (h : Forward read) {c : Char} {s t rest : Text} {a : α} (hr : read none (c :: s) = some (a, rest))
    (hs : s = t ++ rest) (f : α → Text) : replaceAll read f (c :: s) = f a ++ replaceAll read f rest := by
  simp only [replaceAll, h.cut_hit hr hs, List.flatMap_cons]

theorem findFrom_eq (h : Forward read) (b b' : Option Char) (s : Text) : findFrom read b s = findFrom read b' s := by
  cases s with
  | nil => rfl
  | cons c s => simp only [findFrom, h b b']

section Effects

variable {m : Type → Type} [Monad m] [LawfulMonad m] (h : Forward read) {c : Char} {s t rest : Text} {a : α}

include h

theorem replaceAllM_cons (hr : read none (c :: s) = none) (f : α → m Text) :
    replaceAllM read f (c :: s) = replaceAllM read f s >>= fun t => pure (c :: t) := by
  simp only [replaceAllM, h.cut_cons hr, List.mapM_cons, pure_bind, bind_assoc, List.flatten_cons, List.singleton_append]

end Effects

theorem readAll_hit (h : Forward read) {c : Char} {s t rest : Text} {a : α}
    (hr : read none (c :: s) = some (a, rest)) (hs : s = t ++ rest) : readAll read (c :: s) = a :: readAll read rest := by
  rw [readAll, h.cut_hit hr hs]
  rfl

theorem misses_of_find?_eq_none (h : Forward read) (hnil : read none [] = none) {s : Text}
    (hs : find? read s = none) : Misses read s := by
  have main (s : Text) (before : Option Char) (hs : findFrom read before s = none) : Misses read s := by
    induction s generalizing before with
    | nil =>
      intro b t ht
      obtain rfl := List.suffix_nil.1 ht
      rw [h b none, hnil]
    | cons c s ih =>
      simp only [findFrom] at hs
      split at hs
      · cases hs
      · rename_i hn
        intro b t ht
        rcases List.suffix_cons_iff.1 ht with rfl | ht
        · rw [h b before, hn]
        · exact ih (some c) (Option.map_eq_none_iff.1 hs) b t ht
  exact main s none hs

/-- Nothing is read in front of what is found, if what is read is read in every longer text. -/
theorem misses_before (h : Forward read) (hnil : read none [] = none)
    (hgrows : ∀ {u : Text} (w : Text), read none (u ++ w) = none → read none u = none) {s : Text} {f : Found α}
    (hf : find? read s = some f) : Misses read f.before := by
  have main (s : Text) (b : Option Char) (f : Found α) (hf : findFrom read b s = some f) :
      (∃ w, s = f.before ++ w) ∧ Misses read f.before := by
    induction s generalizing b f with
    | nil => cases hf
    | cons c s ih =>
      rw [findFrom] at hf
      split at hf
      · obtain rfl := Option.some.inj hf
        refine ⟨⟨c :: s, rfl⟩, fun b' t ht => ?_⟩
        rw [List.suffix_nil.1 ht, h b' none, hnil]
      · rename_i hnone
        obtain ⟨g, hg, rfl⟩ := Option.map_eq_some_iff.1 hf
        obtain ⟨⟨w, rfl⟩, hmiss⟩ := ih (some c) g hg
        refine ⟨⟨w, rfl⟩, fun b' t ht => ?_⟩
        rcases List.suffix_cons_iff.1 ht with rfl | ht
        · rw [h b' none]
          refine hgrows w ?_
          rw [h none b, List.cons_append, hnone]
        · exact hmiss b' t ht
  exact (main s none f hf).2

end Forward

/-! ## Readers that do not look ahead -/

/-- What is read stays the same whatever stands around it. -/
def Firm (read : Reader α) : Prop :=
  ∀ {b s a rest}, read b s = some (a, rest) → ∃ x, x ≠ [] ∧ s = x ++ rest ∧ ∀ b u, read b (x ++ u) = some (a, u)

theorem sections_prefix (ps : List (Piece α)) : (sections ps).1 <+: Piece.sources ps := by
  induction ps with
  | nil => exact List.nil_prefix
  | cons p ps ih =>
    cases p with
    | char c => exact List.cons_prefix_cons.2 ⟨rfl, ih⟩
    | hit a source => exact List.nil_prefix

namespace Firm

variable (h : Firm read)

include h

theorem forward : Forward read := by
  have one {b b' : Option Char} {s : Text} {r : α × Text} (hr : read b s = some r) : read b' s = some r := by
    obtain ⟨a, rest⟩ := r
    obtain ⟨x, -, rfl, hx⟩ := h hr
    exact hx b' rest
  intro b b' s
  cases hr : read b' s with
  | some r => exact one hr
  | none =>
    cases hr' : read b s with
    | some r =>
      rw [one hr'] at hr
      cases hr
    | none => rfl

theorem cut_hit {s rest : Text} {a : α} (hr : read none s = some (a, rest)) :
    ∃ source, cut read s = .hit a source :: cut read rest := by
  obtain ⟨x, hne, rfl, -⟩ := h hr
  cases x with
  | nil => exact absurd rfl hne
  | cons c x => exact ⟨c :: x, h.forward.cut_hit hr rfl⟩

theorem readAll_hit {s rest : Text} {a : α} (hr : read none s = some (a, rest)) :
    readAll read s = a :: readAll read rest := by
  obtain ⟨source, hcut⟩ := h.cut_hit hr
  rw [readAll, hcut]
  rfl

theorem replaceAll_hit {s rest : Text} {a : α} (hr : read none s = some (a, rest)) (f : α → Text) :
    replaceAll read f s = f a ++ replaceAll read f rest := by
  obtain ⟨source, hcut⟩ := h.cut_hit hr
  rw [replaceAll, hcut]
  rfl

theorem replaceAllM_hit {m : Type → Type} [Monad m] [LawfulMonad m] {s rest : Text} {a : α}
    (hr : read none s = some (a, rest)) (f : α → m Text) :
    replaceAllM read f s = f a >>= fun x => replaceAllM read f rest >>= fun t => pure (x ++ t) := by
  obtain ⟨source, hcut⟩ := h.cut_hit hr
  simp only [replaceAllM, hcut, List.mapM_cons, pure_bind, bind_assoc, List.flatten_cons]

omit h in
/-- A text is read from left to right: a character at which nothing can be read, or a construct. -/
theorem induct (h : Firm read) {motive : Text → Prop} (nil : motive [])
    (char : ∀ c s, read none (c :: s) = none → motive s → motive (c :: s))
    (hit : ∀ s a rest, read none s = some (a, rest) → motive rest → motive s) (s : Text) : motive s := by
  generalize hn : s.length = n
  induction n using Nat.strongRecOn generalizing s with
  | _ n ih =>
    cases s with
    | nil => exact nil
    | cons c s =>
      rw [List.length_cons] at hn
      cases hr : read none (c :: s) with
      | none => exact char c s hr (ih s.length (by omega) s rfl)
      | some r =>
        obtain ⟨a, rest⟩ := r
        obtain ⟨x, hne, hx, -⟩ := h hr
        have hlength := congrArg List.length hx
        have hpos := List.length_pos_iff.2 hne
        simp only [List.length_append, List.length_cons] at hlength
        exact hit _ a rest hr (ih rest.length (by omega) rest rfl)

/-- A reader occurs in a text if something is read there. -/
theorem occurs_eq (s : Text) : occurs read s = !(readAll read s).isEmpty := by
  induction s using h.induct with
  | nil => rfl
  | char c s hr ih =>
    rw [h.forward.readAll_cons hr, ← ih, occurs, find?, findFrom, hr, h.forward.findFrom_eq (some c) none]
    exact Option.isSome_map
  | hit s a rest hr _ =>
    rw [h.readAll_hit hr]
    cases s with
    | nil =>
      obtain ⟨x, hne, hx, -⟩ := h hr
      exact absurd (List.append_eq_nil_iff.1 hx.symm).1 hne
    | cons c s =>
      rw [occurs, find?, findFrom, hr]
      rfl

/-- Nothing can be read between the constructs of a text. -/
theorem misses_sections (s : Text) :
    Misses read (sections (cut read s)).1 ∧ ∀ p ∈ (sections (cut read s)).2, Misses read p.2 := by
  have hnil : Misses read [] := by
    intro b t ht
    obtain rfl := List.suffix_nil.1 ht
    cases hr : read b [] with
    | none => rfl
    | some r =>
      obtain ⟨x, hne, hx, -⟩ := h hr
      exact absurd (List.append_eq_nil_iff.1 hx.symm).1 hne
  generalize hn : s.length = n
  induction n using Nat.strongRecOn generalizing s with
  | _ n ih =>
    cases s with
    | nil => exact ⟨hnil, fun p hp => absurd hp List.not_mem_nil⟩
    | cons c s =>
      cases hr : read none (c :: s) with
      | none =>
        obtain ⟨hfirst, hmore⟩ := ih s.length (by simp [← hn]) s rfl
        have hprefix := sections_prefix (cut read s)
        rw [sources_cut] at hprefix
        rw [h.forward.cut_cons hr]
        refine ⟨fun b t ht => ?_, hmore⟩
        rcases List.suffix_cons_iff.1 ht with rfl | ht
        · -- what can be read here can be read in the whole text
          cases hread : read b (c :: (sections (cut read s)).1) with
          | none => rfl
          | some r =>
            obtain ⟨a, rest⟩ := r
            obtain ⟨x, -, hx, hall⟩ := h hread
            obtain ⟨u, hu⟩ := hprefix
            have hwhole : c :: s = x ++ (rest ++ u) := by rw [← List.append_assoc, ← hx, List.cons_append, hu]
            rw [hwhole, hall] at hr
            cases hr
        · exact hfirst b t ht
      | some r =>
        obtain ⟨a, rest⟩ := r
        obtain ⟨source, hcut⟩ := h.cut_hit hr
        obtain ⟨x, hne, hx, -⟩ := h hr
        have hlt : rest.length < n := by
          have := congrArg List.length hx
          have := List.length_pos_iff.2 hne
          simp only [List.length_append] at *
          omega
        obtain ⟨hfirst, hmore⟩ := ih rest.length hlt rest rfl
        rw [hcut]
        exact ⟨hnil, List.forall_mem_cons.2 ⟨hfirst, hmore⟩⟩

end Firm

end Text

end Galley
