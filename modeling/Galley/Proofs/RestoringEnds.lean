import Galley.Proofs.Restoring
import Mathlib.Data.List.Perm.Subperm
import Mathlib.Data.Multiset.Bind
import Mathlib.Logic.Relation
/-!
# The end of restoring

Restoring goes on for ever just where every mark that is met can be read and one of them leads back to its own piece:
a way on which no piece comes twice is no longer than there are pieces (`endless_of_restore`). So restoring stops in
as many rounds as there are pieces or never (`restores_iff`). Where no number stands in two marks, no piece is
restored twice (`nodup_met`).
-/

namespace Galley.Inline.Stash

open Relation

section Rounds

variable {pieces : Stash} {s t d e : Text}

/-! ## Ways on which a piece comes twice -/

/-- A value that is there twice. -/
theorem exists_repeat {α β : Type} {f : α → β} {l : List α} (h : ¬ (l.map f).Nodup) :
    ∃ a x b y c, l = a ++ x :: (b ++ y :: c) ∧ f x = f y := by
  induction l with
  | nil => simp at h
  | cons x l ih =>
    by_cases hx : f x ∈ l.map f
    · obtain ⟨y, hy, he⟩ := List.mem_map.1 hx
      obtain ⟨b, c, rfl⟩ := List.append_of_mem hy
      exact ⟨[], x, b, y, c, rfl, he.symm⟩
    · obtain ⟨a, z, b, y, c, rfl, he⟩ := ih fun hl => h (List.nodup_cons.2 ⟨hx, hl⟩)
      exact ⟨x :: a, z, b, y, c, rfl, he⟩

/-- A way of more marks than there are pieces goes through one piece twice. -/
theorem repeat_of_long {way : List Text} (hread : ∀ d ∈ way, Readable pieces d) (hlong : pieces.length < way.length) :
    ∃ a x b y c, way = a ++ x :: (b ++ y :: c) ∧ Text.digitsValue x = Text.digitsValue y := by
  refine exists_repeat fun hnodup => ?_
  have hsubset : way.map Text.digitsValue ⊆ List.range pieces.length := by
    intro n hn
    obtain ⟨d, hd, rfl⟩ := List.mem_map.1 hn
    exact List.mem_range.2 (hread d hd).lt_length
  have hle := (hnodup.subperm hsubset).length_le
  rw [List.length_map, List.length_range] at hle
  omega

theorem content_congr (h : Text.digitsValue d = Text.digitsValue e) : content pieces d = content pieces e := by
  rw [content, content, h]

section Ways

variable {a b c : List Text} {x y : Text}

/-- A way without the part between two marks of one piece. -/
theorem shorter_way (h : ((a ++ x :: (b ++ y :: c)) ++ [e]).IsChain (Leads pieces))
    (hxy : Text.digitsValue x = Text.digitsValue y) : ((a ++ x :: c) ++ [e]).IsChain (Leads pieces) := by
  have hsplit : (a ++ x :: (b ++ y :: (c ++ [e]))).IsChain (Leads pieces) := by simpa using h
  obtain ⟨hbefore, hfrom⟩ := List.isChain_split.1 hsplit
  have htail : ((x :: b) ++ y :: (c ++ [e])).IsChain (Leads pieces) := hfrom
  obtain ⟨hnext, hafter⟩ := List.isChain_cons.1 (List.isChain_split.1 htail).2
  have hshort : (a ++ x :: (c ++ [e])).IsChain (Leads pieces) := by
    refine List.isChain_split.2 ⟨hbefore, List.isChain_cons.2 ⟨fun z hz => ?_, hafter⟩⟩
    rw [Leads, content_congr hxy]
    exact hnext z hz
  simpa using hshort

/-- Along a way pieces name each other. -/
theorem names_of_way (h : (x :: (b ++ [y])).IsChain (Leads pieces)) :
    TransGen (Names pieces) (Text.digitsValue x) (Text.digitsValue y) := by
  induction b generalizing x with
  | nil =>
    obtain ⟨hnext, -⟩ := List.isChain_cons.1 h
    exact .single (hnext y rfl).names
  | cons z b ih =>
    obtain ⟨hnext, htail⟩ := List.isChain_cons.1 h
    exact .head (hnext z rfl).names (ih htail)

/-- Every mark on a way is met in the round of its place. -/
theorem mem_of_way {ds : List Text} (h : ((a ++ x :: c) ++ [e]).IsChain (Leads pieces))
    (hhead : ∀ d ∈ ((a ++ x :: c) ++ [e]).head?, d ∈ ds) : x ∈ marksAfter pieces a.length ds := by
  have hsplit : (a ++ x :: (c ++ [e])).IsChain (Leads pieces) := by simpa using h
  refine mem_marksAfter_iff.2 ⟨a, rfl, (List.isChain_split.1 hsplit).1, fun d hd => hhead d ?_⟩
  cases a <;> exact hd

end Ways

/-! ## Restoring without end -/

theorem endless_of_restoreWithin (hp : ∀ piece ∈ pieces, Sealed piece) {n : Nat}
    (h : restoreWithin pieces n s = .error .endlessPiece) :
    (∀ k < n, ∀ d ∈ marksAfter pieces k (marks s), Readable pieces d) ∧ marksAfter pieces n (marks s) ≠ [] := by
  induction n generalizing s with
  | zero =>
    refine ⟨fun k hk => absurd hk (Nat.not_lt_zero k), fun hnil => ?_⟩
    have hoccurs : s.occurs reader = false := by rw [occurs_reader, show marks s = [] from hnil]; rfl
    rw [restoreWithin, hoccurs] at h
    cases h
  | succ n ih =>
    rw [restoreWithin] at h
    split at h
    · by_cases hread : ∀ d ∈ marks s, Readable pieces d
      · rw [restoreOnce_ok hread] at h
        obtain ⟨hmore, hlast⟩ := ih h
        rw [marks_replaceAll fun d hd => hp _ (hread d hd).mem] at hmore hlast
        refine ⟨fun k hk => ?_, hlast⟩
        cases k with
        | zero => exact hread
        | succ k => exact hmore k (by omega)
      · obtain ⟨d, -, fault, hfault, hround⟩ := restoreOnce_error hread
        rw [hround] at h
        cases h
        rcases fault_of_named hfault with hf | ⟨_, hf⟩ <;> cases hf
    · cases h

/-- Where restoring finds no end in as many rounds as there are pieces, every mark can be read and one of them leads
    back to its own piece. -/
theorem endless_of_restore (hp : ∀ piece ∈ pieces, Sealed piece) (h : restore pieces s = .error .endlessPiece) :
    (∀ d, Reached pieces s d → Readable pieces d) ∧
      ∃ d, Reached pieces s d ∧ TransGen (Names pieces) (Text.digitsValue d) (Text.digitsValue d) := by
  obtain ⟨hearly, hlast⟩ := endless_of_restoreWithin hp h
  have hway {way : List Text} {e : Text} (hchain : (way ++ [e]).IsChain (Leads pieces))
      (hhead : ∀ d ∈ (way ++ [e]).head?, d ∈ marks s)
      (hread : ∀ k < way.length, ∀ d ∈ marksAfter pieces k (marks s), Readable pieces d) : ∀ d ∈ way, Readable pieces d := by
    intro d hd
    obtain ⟨a, c, rfl⟩ := List.append_of_mem hd
    exact hread a.length (by simp) d (mem_of_way hchain hhead)
  constructor
  · -- a mark met later is met earlier too, on a way without repetition
    rintro d ⟨k, hk⟩
    induction k using Nat.strongRecOn generalizing d with
    | _ k ih =>
      by_cases hle : k ≤ pieces.length
      · exact hearly k (by omega) d hk
      · obtain ⟨way, rfl, hchain, hhead⟩ := mem_marksAfter_iff.1 hk
        have hread := hway hchain hhead fun k hk d hd => ih k hk d hd
        obtain ⟨a, x, b, y, c, rfl, hxy⟩ := repeat_of_long hread (by omega)
        refine ih (a ++ x :: c).length (by simp only [List.length_append, List.length_cons]; omega) d ?_
        refine mem_marksAfter_iff.2 ⟨_, rfl, shorter_way hchain hxy, fun e he => hhead e ?_⟩
        cases a <;> exact he
  · -- as many rounds as there are pieces, and one mark more, so two marks on the way name one piece
    obtain ⟨e, he⟩ := List.exists_mem_of_ne_nil _ hlast
    obtain ⟨way, hlen, hchain, hhead⟩ := mem_marksAfter_iff.1 he
    have hread := hway hchain hhead fun k hk d hd => hearly k (by omega) d hd
    obtain ⟨a, x, b, y, c, rfl, hxy⟩ := repeat_of_long hread (by omega)
    refine ⟨x, ⟨a.length, mem_of_way hchain hhead⟩, ?_⟩
    have hsplit : (a ++ x :: (b ++ y :: (c ++ [e]))).IsChain (Leads pieces) := by simpa using hchain
    have htail : ((x :: b) ++ y :: (c ++ [e])).IsChain (Leads pieces) := (List.isChain_split.1 hsplit).2
    have hloop := names_of_way (List.isChain_split.1 htail).1
    rwa [← hxy] at hloop

/-- A piece that leads back to itself leads to marks in every round. -/
theorem marksAfter_ne_nil (hloop : TransGen (Names pieces) (Text.digitsValue d) (Text.digitsValue d)) (n : Nat) :
    marksAfter pieces n [d] ≠ [] := by
  induction n generalizing d with
  | zero => exact List.cons_ne_nil d []
  | succ n ih =>
    obtain ⟨j, ⟨piece, hpiece, hj⟩, hback⟩ := TransGen.head'_iff.1 hloop
    obtain ⟨e, he, rfl⟩ := List.mem_map.1 hj
    have hcontent : content pieces d = piece := by rw [content, hpiece, Option.getD_some]
    have hmem : [e] ⊆ [d].flatMap fun d => marks (content pieces d) := by simpa [hcontent] using he
    have hnext : TransGen (Names pieces) (Text.digitsValue e) (Text.digitsValue e) :=
      .tail' hback ⟨piece, hpiece, List.mem_map_of_mem he⟩
    exact List.ne_nil_of_mem (marksAfter_subset hmem n (List.exists_mem_of_ne_nil _ (ih hnext)).choose_spec)

theorem Reached.marksAfter_ne_nil (h : Reached pieces s d)
    (hloop : TransGen (Names pieces) (Text.digitsValue d) (Text.digitsValue d)) (n : Nat) :
    marksAfter pieces n (marks s) ≠ [] := by
  obtain ⟨m, hm⟩ := h
  intro hnil
  have hlong : marksAfter pieces (m + n) (marks s) ≠ [] := by
    rw [marksAfter_add]
    have hsub : marksAfter pieces n [d] ⊆ marksAfter pieces n (marksAfter pieces m (marks s)) :=
      marksAfter_subset (by simpa using hm) n
    exact List.ne_nil_of_mem (hsub (List.exists_mem_of_ne_nil _ (Stash.marksAfter_ne_nil hloop n)).choose_spec)
  rw [Nat.add_comm, marksAfter_add, hnil, marksAfter_nil] at hlong
  exact hlong rfl

/-- Restoring stops at once where the first mark cannot be read. -/
theorem restore_error {rest : Text} {fault : Fault} (hr : reader none s = some (d, rest))
    (h : named pieces d = .error fault) : restore pieces s = .error fault := by
  have hoccurs : s.occurs reader = true := by
    have hmarks : marks s = d :: marks rest := firm_reader.readAll_hit hr
    rw [occurs_reader, hmarks]
    rfl
  have hround : restoreOnce pieces s = .error fault := by
    rw [restoreOnce, firm_reader.replaceAllM_hit hr, h]
    rfl
  rw [restore, restoreWithin, if_pos hoccurs, hround]
  rfl

/-! ## Restoring as far as it goes -/

/-- How restoring goes on: until no mark is left, or to the round that stops at a mark. -/
inductive Restores (pieces : Stash) : Text → Except Fault Text → Prop
  | done {s : Text} (h : s.occurs reader = false) : Restores pieces s (.ok s)
  | stop {s : Text} {fault : Fault} (h : s.occurs reader = true) (hr : restoreOnce pieces s = .error fault) :
      Restores pieces s (.error fault)
  | round {s t : Text} {r : Except Fault Text} (h : s.occurs reader = true) (hr : restoreOnce pieces s = .ok t)
      (ht : Restores pieces t r) : Restores pieces s r

namespace Restores

variable {r r' : Except Fault Text}

theorem deterministic (h : Restores pieces s r) (h' : Restores pieces s r') : r = r' := by
  induction h with
  | done hs =>
    cases h' with
    | done _ => rfl
    | stop hs' _ => rw [hs] at hs'; cases hs'
    | round hs' _ _ => rw [hs] at hs'; cases hs'
  | stop hs hr =>
    cases h' with
    | done hs' => rw [hs] at hs'; cases hs'
    | stop _ hr' => rw [hr] at hr'; cases hr'; rfl
    | round _ hr' _ => rw [hr] at hr'; cases hr'
  | round hs hr _ ih =>
    cases h' with
    | done hs' => rw [hs] at hs'; cases hs'
    | stop _ hr' => rw [hr] at hr'; cases hr'
    | round _ hr' ht' =>
      rw [hr] at hr'
      cases hr'
      exact ih ht'

theorem of_restoreWithin {n : Nat} (h : restoreWithin pieces n s = r) (hr : r ≠ .error .endlessPiece) :
    Restores pieces s r := by
  induction n generalizing s with
  | zero =>
    rw [restoreWithin] at h
    split at h
    · exact absurd h.symm hr
    · rename_i hs
      rw [← h]
      exact .done (Bool.eq_false_iff.2 hs)
  | succ n ih =>
    rw [restoreWithin] at h
    split at h
    · rename_i hs
      cases hround : restoreOnce pieces s with
      | error fault =>
        rw [hround] at h
        rw [← h]
        exact .stop hs hround
      | ok t =>
        rw [hround] at h
        exact .round hs hround (ih h)
    · rename_i hs
      rw [← h]
      exact .done (Bool.eq_false_iff.2 hs)

theorem readable_of_round (h : restoreOnce pieces s = .ok t) :
    (∀ d ∈ marks s, Readable pieces d) ∧ t = s.replaceAll reader (content pieces) := by
  by_cases hread : ∀ d ∈ marks s, Readable pieces d
  · rw [restoreOnce_ok hread] at h
    exact ⟨hread, (Except.ok.inj h).symm⟩
  · obtain ⟨d, -, fault, -, hround⟩ := restoreOnce_error hread
    rw [hround] at h
    cases h

theorem not_readable_of_stop {fault : Fault} (h : restoreOnce pieces s = .error fault) :
    ∃ d ∈ marks s, named pieces d = .error fault := by
  by_cases hread : ∀ d ∈ marks s, Readable pieces d
  · rw [restoreOnce_ok hread] at h
    cases h
  · obtain ⟨d, hd, fault', hnamed, hround⟩ := restoreOnce_error hread
    rw [hround] at h
    cases h
    exact ⟨d, hd, hnamed⟩

theorem marks_eq_nil (h : s.occurs reader = false) : marks s = [] := by
  rw [occurs_reader, Bool.not_eq_false', List.isEmpty_iff] at h
  exact h

/-- A marked text is restored from marked pieces to a text of accepted characters. -/
theorem within {ok : Char → Bool} (hopen : ok opening = false) (hp : ∀ piece ∈ pieces, ∃ v, Marked ok v piece)
    (h : Restores pieces s (.ok t)) (hs : ∃ u, Marked ok u s) : Within ok t := by
  generalize hr : Except.ok t = r at h
  induction h with
  | done hdone =>
    cases hr
    obtain ⟨u, hu⟩ := hs
    exact hu.within_of_marks hopen (marks_eq_nil hdone)
  | stop _ _ => cases hr
  | round _ hround _ ih =>
    obtain ⟨hread, rfl⟩ := readable_of_round hround
    obtain ⟨u, hu⟩ := hs
    exact ih (hu.replaceAll hopen fun d hd => hp _ (hread d hd).mem) hr

section Sealed

variable (hp : ∀ piece ∈ pieces, Sealed piece)

include hp

/-- The marks of the next text. -/
theorem marks_of_round (h : restoreOnce pieces s = .ok t) :
    marks t = (marks s).flatMap fun d => marks (content pieces d) := by
  obtain ⟨hread, rfl⟩ := readable_of_round h
  exact marks_replaceAll fun d hd => hp _ (hread d hd).mem

theorem reached_of_round (h : restoreOnce pieces s = .ok t) (hd : Reached pieces t d) : Reached pieces s d := by
  obtain ⟨n, hn⟩ := hd
  rw [marks_of_round hp h] at hn
  exact ⟨n + 1, hn⟩

/-- Restoring stops at a mark that it meets. -/
theorem exists_of_error {fault : Fault} (h : Restores pieces s (.error fault)) :
    ∃ d, Reached pieces s d ∧ named pieces d = .error fault := by
  generalize hr : Except.error fault = r at h
  induction h with
  | done _ => cases hr
  | stop _ hround =>
    cases hr
    obtain ⟨d, hd, hnamed⟩ := not_readable_of_stop hround
    exact ⟨d, ⟨0, hd⟩, hnamed⟩
  | round _ hround _ ih =>
    obtain ⟨d, hd, hnamed⟩ := ih hr
    exact ⟨d, reached_of_round hp hround hd, hnamed⟩

/-- Restoring to the end meets no mark but those that can be read, and none from some round on. -/
theorem readable_of_ok (h : Restores pieces s (.ok t)) :
    (∀ d, Reached pieces s d → Readable pieces d) ∧ (∃ n, marksAfter pieces n (marks s) = []) ∧ t.occurs reader = false := by
  generalize hr : Except.ok t = r at h
  induction h with
  | done hs =>
    cases hr
    refine ⟨fun d ⟨n, hn⟩ => ?_, ⟨0, marks_eq_nil hs⟩, hs⟩
    rw [marks_eq_nil hs, marksAfter_nil] at hn
    cases hn
  | stop _ _ => cases hr
  | round _ hround _ ih =>
    obtain ⟨hread, ⟨n, hn⟩, ht⟩ := ih hr
    rw [marks_of_round hp hround] at hn
    refine ⟨fun d ⟨m, hm⟩ => ?_, ⟨n + 1, hn⟩, ht⟩
    cases m with
    | zero => exact (readable_of_round hround).1 d hm
    | succ m =>
      refine hread d ⟨m, ?_⟩
      rw [marks_of_round hp hround]
      exact hm

/-- What stands in a restored text stood in the text or in a piece whose mark was met. -/
theorem mem_iff {c : Char} (hc : Apart c) (h : Restores pieces s (.ok t)) :
    c ∈ t ↔ c ∈ s ∨ ∃ d, Reached pieces s d ∧ c ∈ content pieces d := by
  generalize hr : Except.ok t = r at h
  induction h with
  | done hs =>
    cases hr
    refine ⟨.inl, fun h => h.resolve_right fun ⟨d, ⟨n, hn⟩, _⟩ => ?_⟩
    rw [marks_eq_nil hs, marksAfter_nil] at hn
    cases hn
  | stop _ _ => cases hr
  | @round s u _ _ hround _ ih =>
    obtain ⟨-, rfl⟩ := readable_of_round hround
    rw [ih hr, mem_replaceAll_iff hc, or_assoc]
    refine or_congr_right ⟨fun h => ?_, fun ⟨d, ⟨n, hn⟩, hmem⟩ => ?_⟩
    · rcases h with ⟨d, hd, hmem⟩ | ⟨d, hd, hmem⟩
      · exact ⟨d, ⟨0, hd⟩, hmem⟩
      · exact ⟨d, reached_of_round hp hround hd, hmem⟩
    · cases n with
      | zero => exact .inl ⟨d, hn, hmem⟩
      | succ n =>
        refine .inr ⟨d, ⟨n, ?_⟩, hmem⟩
        rw [marks_of_round hp hround]
        exact hn

end Sealed

end Restores

section Ends

variable (hp : ∀ piece ∈ pieces, Sealed piece)

include hp

/-- Restoring has an end if a mark that is met cannot be read, or no piece that is met leads back to itself. -/
theorem exists_restores_iff : (∃ r, Restores pieces s r) ↔ (∃ d, Reached pieces s d ∧ ¬ Readable pieces d) ∨
    ∀ d, Reached pieces s d → ¬ TransGen (Names pieces) (Text.digitsValue d) (Text.digitsValue d) := by
  constructor
  · rintro ⟨r, h⟩
    cases r with
    | error fault =>
      obtain ⟨d, hd, hnamed⟩ := h.exists_of_error hp
      refine .inl ⟨d, hd, fun ⟨piece, hpiece⟩ => ?_⟩
      rw [hnamed] at hpiece
      cases hpiece
    | ok t =>
      obtain ⟨-, ⟨n, hn⟩, -⟩ := h.readable_of_ok hp
      exact .inr fun d hd hloop => hd.marksAfter_ne_nil hloop n hn
  · intro h
    refine ⟨restore pieces s, .of_restoreWithin rfl fun hendless => ?_⟩
    obtain ⟨hread, d, hd, hloop⟩ := endless_of_restore hp hendless
    rcases h with ⟨e, he, hnot⟩ | hno
    · exact hnot (hread e he)
    · exact hno d hd hloop

/-- As many rounds as there are pieces are enough: restoring that has not stopped by then never does. -/
theorem restores_iff {r : Except Fault Text} : Restores pieces s r ↔ restore pieces s = r ∧ r ≠ .error .endlessPiece := by
  have hnever (hendless : restore pieces s = .error .endlessPiece) (h : Restores pieces s r) : False := by
    obtain ⟨hread, d, hd, hloop⟩ := endless_of_restore hp hendless
    rcases (exists_restores_iff hp).1 ⟨r, h⟩ with ⟨e, he, hnot⟩ | hno
    · exact hnot (hread e he)
    · exact hno d hd hloop
  constructor
  · intro h
    have hr : restore pieces s = r := Restores.deterministic (.of_restoreWithin rfl fun he => hnever he h) h
    exact ⟨hr, fun he => hnever (hr.trans he) h⟩
  · rintro ⟨hr, hne⟩
    exact .of_restoreWithin hr hne

end Ends

end Rounds

/-! ## Numbers that were given out -/

/-- Every number given out can be read, however many digits it has. -/
theorem readable_ofNat {pieces : Stash} {k : Nat} (hk : k < pieces.length) : Readable pieces (Text.ofNat k) := by
  have hlength (n e : Nat) (he : 0 < e) : (Text.ofNat n).length ≤ e ↔ n < 10 ^ e := by
    rw [Text.ofNat, Nat.toString_eq_ofList_toDigits, String.toList_ofList]
    exact Nat.length_toDigits_le_iff (by decide) he
  have hpos : 0 < (Text.ofNat pieces.length).length :=
    List.length_pos_iff.2 (List.isEmpty_eq_false_iff.1 (Text.isEmpty_ofNat pieces.length))
  have hle : (Text.ofNat k).length ≤ (Text.ofNat pieces.length).length :=
    (hlength k _ hpos).2 (hk.trans ((hlength pieces.length _ hpos).1 le_rfl))
  have hmost : ¬ mostDigits pieces < (Text.ofNat k).length := by
    rw [mostDigits]
    omega
  exact ⟨pieces[k], by rw [named, if_neg hmost, Text.digitsValue_ofNat, List.getElem?_eq_getElem hk]⟩

/-- The numbers of the marks in a text. -/
def numbers (s : Text) : List Nat := (marks s).map Text.digitsValue

/-- The marks of a marked text are those it was given, and no more. -/
theorem Marked.marks_eq {ok : Char → Bool} (hopen : ok opening = false) {u : Multiset Nat} {s : Text} (h : Marked ok u s) :
    marks s = (numbers s).map Text.ofNat ∧ (numbers s : Multiset Nat) ≤ u := by
  induction h with
  | nil => exact ⟨rfl, Multiset.zero_le _⟩
  | @char u c s hc _ ih =>
    have hne : c ≠ opening := by
      rintro rfl
      rw [hopen] at hc
      cases hc
    rw [numbers, marks_cons hne]
    exact ih
  | @mark u v k s hk _ ih =>
    have hmarks : marks (Stash.mark k ++ s) = Text.ofNat k :: marks s := firm_reader.readAll_hit (reader_mark k none s)
    rw [numbers, hmarks, List.map_cons, Text.digitsValue_ofNat]
    refine ⟨congrArg _ ih.1, le_trans ?_ hk⟩
    rw [← Multiset.cons_coe]
    exact Multiset.cons_le_cons k ih.2

/-! ## No piece twice -/

section Once

variable {pieces : Stash} {s : Text}

/-- The numbers of all marks in pieces, piece by piece. -/
theorem flatMap_numbers (pieces : Stash) :
    (List.range pieces.length).flatMap (fun i => numbers ((pieces[i]?).getD [])) = pieces.flatMap numbers := by
  induction pieces with
  | nil => rfl
  | cons piece pieces ih =>
    rw [List.length_cons, List.range_succ_eq_map, List.flatMap_cons, List.flatMap_map, List.flatMap_cons, ← ih]
    rfl

/-- The numbers of all marks met in the first rounds. -/
def met (pieces : Stash) (s : Text) (rounds : Nat) : List Nat :=
  ((List.range rounds).flatMap fun k => marksAfter pieces k (marks s)).map Text.digitsValue

theorem met_succ (n : Nat) :
    met pieces s (n + 1) = numbers s ++ (met pieces s n).flatMap fun i => numbers ((pieces[i]?).getD []) := by
  have hnext (k : Nat) : marksAfter pieces (k + 1) (marks s) =
      (marksAfter pieces k (marks s)).flatMap fun d => marks (content pieces d) := marksAfter_succ k _
  rw [met, List.range_succ_eq_map, List.flatMap_cons, List.flatMap_map, List.map_append]
  refine congrArg (numbers s ++ ·) ?_
  simp only [hnext, met, List.flatMap_map, List.map_flatMap, List.flatMap_assoc]
  rfl

/-- Where no number stands in two marks, no mark is met twice. -/
theorem nodup_met (h : (numbers s ++ pieces.flatMap numbers : Multiset Nat) ≤ List.range pieces.length) (n : Nat) :
    (met pieces s n).Nodup := by
  have hle : (met pieces s n : Multiset Nat) ≤ List.range pieces.length := by
    induction n with
    | zero => exact Multiset.zero_le _
    | succ n ih =>
      obtain ⟨rest, hrest⟩ := Multiset.le_iff_exists_add.1 ih
      refine le_trans ?_ h
      rw [met_succ, ← Multiset.coe_add, ← Multiset.coe_add, ← flatMap_numbers, ← Multiset.coe_bind, ← Multiset.coe_bind,
        hrest, Multiset.add_bind]
      exact add_le_add_right (Multiset.le_add_right _ _) _
  exact Multiset.coe_nodup.1 (Multiset.nodup_of_le hle (Multiset.coe_nodup.2 List.nodup_range))

end Once

end Galley.Inline.Stash
