import Galley.Proofs.Stages
/-!
# Pictures in a row

A picture ends at the first end marker behind its begin marker, whatever is between them. Where no
picture holds another this takes environments out whole (`ends_pictures`). Where one does, its own end
marker is left over, and nothing takes that out that does not enclose it (`ends_pictures_stray`).
-/

namespace Galley

open Mark

theorem Group.read?_eq_none {delimiter : Delimiter} {s : Text} (h : delimiter.opener ∉ s) (opaqueQuotes : Bool) :
    Group.read? delimiter s opaqueQuotes = none := by
  have hread : Group.read delimiter s opaqueQuotes = .ok none := by
    unfold Group.read
    split
    · rfl
    · rename_i c r hc
      have hmem : c ∈ s := (List.dropWhile_suffix isGap).subset (by rw [hc]; exact List.mem_cons_self)
      rw [if_neg fun he => h (by rwa [← he])]
  rw [Group.read?, hread]

namespace Extract.Diagram

def pictureName : Text := "tikzpicture"

theorem isTaken_pictureName : isTaken pictureName = true := by decide

theorem brace_not_mem_pictureName : '}' ∉ pictureName := by decide

/-- A row of marks without the first picture, which ends at the first end marker behind its begin
    marker. -/
def CutsFirst (ms ms' : List Mark) : Prop :=
  ∃ p b q, ms = p ++ opening pictureName :: (b ++ closing pictureName :: q) ∧ opening pictureName ∉ p ∧
    closing pictureName ∉ b ∧ ms' = p ++ q

/-- What one round does to a nested row in which no picture has options. -/
theorem ends_picture (kit : Kit) (sequence : Nat) {d : Row} {k : Nat} (hd : Nested k d.marks) (hb : '[' ∉ d.source) :
    Bench.Ends (picture kit sequence d.source) fun r => match r with
      | none => opening pictureName ∉ d.marks
      | some s => ∃ d' : Row, s = d'.source ∧ '[' ∉ d'.source ∧ CutsFirst d.marks d'.marks := by
  have hbegins := (Marker.finds_begins brace_not_mem_pictureName).find?_source d
  have hends (q : Row) := (Marker.finds_ends brace_not_mem_pictureName).find?_source q
  simp only [picture]
  rcases hbegins with ⟨hn, hall⟩ | ⟨p, m, hm, r, a, rfl, ha, hp, hf⟩
  · rw [show Marker.begins "tikzpicture" = Marker.begins pictureName from rfl, hn]
    exact .pure fun hm => by simpa using hall _ hm
  · obtain rfl : m = .opening pictureName := by
      split at ha
      · assumption
      · cases ha
    have hbr : '[' ∉ Row.source r := fun hm => hb (by simp [hm])
    have hoptions : Group.read? .bracket (Row.source r) true = none := Group.read?_eq_none hbr true
    simp only [show Marker.begins "tikzpicture" = Marker.begins pictureName from rfl, hf, hoptions, Option.getD_none,
      show Marker.ends "tikzpicture" = Marker.ends pictureName from rfl]
    rcases hends r with ⟨hn, hall⟩ | ⟨b, m', hm', q, a', rfl, ha', hbb, hf'⟩
    · -- in a nested row what begins also ends
      obtain ⟨j, hj⟩ := hd.suffix (a := p.marks) (b := opening pictureName :: Row.marks r) (by simp)
      have hmem : closing pictureName ∈ Row.marks r := by
        simpa using hj.closing_mem List.mem_cons_self
      exact absurd (hall _ hmem) (by simp)
    · obtain rfl : m' = .closing pictureName := by
        split at ha'
        · assumption
        · cases ha'
      rw [hf']
      refine (Bench.ends_register _ _ _).bind fun token ht => .pure ?_
      have hplain : ∀ c ∈ token, isPlainChar c = true := fun c hc => (isPlainChar_of_isPlaceholderChar (ht c hc)).1
      have hbracket : '[' ∉ token := fun hc => (isPlainChar_of_isPlaceholderChar (ht _ hc)).2 rfl
      refine ⟨p ++ Row.ofText token hplain ++ q, by simp, ?_, p.marks, Row.marks b, Row.marks q, by simp, ?_, ?_,
        by simp⟩
      · simp only [Row.source_append, Row.source_cons, Row.source_ofText, List.mem_append, not_or] at hb ⊢
        exact ⟨⟨hb.1, hbracket⟩, hb.2.2.2.2⟩
      · exact fun hmem => by simpa using hp _ hmem
      · exact fun hmem => by simpa using hbb _ hmem

end Extract.Diagram

/-- The text is a nested row with `P` of its marks. -/
def LeavesRow (P : List Mark → Prop) (s : Text) : Prop :=
  ∃ d : Row, s = d.source ∧ (∃ k, Nested k d.marks) ∧ P d.marks

theorem Nested.cutsFirst {k : Nat} {ms ms' : List Mark} (h : Nested k ms) (hc : Extract.Diagram.CutsFirst ms ms') :
    ∃ j, Nested j ms' := by
  obtain ⟨p, b, q, hm, -, hclosing, rfl⟩ := hc
  obtain ⟨e, he, -⟩ := depth_of_closing_not_mem hclosing 0
  obtain ⟨j, hj, -⟩ := h.cut he hm
  exact ⟨j, hj⟩

namespace Extract.Diagram

/-- `I n` holds of the marks when `n` rounds are left. -/
theorem ends_pictures (kit : Kit) {I : Nat → List Mark → Prop} {P : List Mark → Prop}
    (hstep : ∀ n ms ms', I (n + 1) ms → CutsFirst ms ms' → I n ms')
    (hend : ∀ n ms, I n ms → n = 0 ∨ opening pictureName ∉ ms → P ms)
    {d : Row} {k : Nat} (hd : Nested k d.marks) (hb : '[' ∉ d.source) (hI : I kit.settings.diagramIterationCap d.marks) :
    Bench.Ends (pictures kit d.source) (LeavesRow P) := by
  refine Bench.Ends.bind (P := fun r => LeavesRow P r.2) ?_ fun r hr => .pure hr
  refine Bench.ends_rounds (I := fun n r => ∃ d' : Row, r.2 = d'.source ∧ '[' ∉ d'.source ∧
    (∃ k, Nested k d'.marks) ∧ I n d'.marks) ?_ ?_ ⟨d, rfl, hb, ⟨k, hd⟩, hI⟩
  · rintro n ⟨i, s⟩ ⟨d', rfl, hb', ⟨j, hj⟩, hI'⟩
    refine (ends_picture kit _ hj hb').bind fun o ho => .pure ?_
    cases o with
    | none => exact ⟨d', rfl, ⟨j, hj⟩, hend _ _ hI' (.inr ho)⟩
    | some t =>
      obtain ⟨d'', rfl, hb'', hc⟩ := ho
      exact ⟨d'', rfl, hb'', hj.cutsFirst hc, hstep _ _ _ hI' hc⟩
  · rintro ⟨i, s⟩ ⟨d', rfl, -, hk, hI'⟩
    exact ⟨d', rfl, hk, hend _ _ hI' (.inl rfl)⟩

/-! ## No picture in a picture -/

theorem ends_pictures_flat (kit : Kit) {d : Row} (hd : Nested 0 d.marks) (hb : '[' ∉ d.source)
    (hflat : Flat pictureName d.marks) : Bench.Ends (pictures kit d.source) (LeavesRow (Nested 0)) := by
  refine ends_pictures kit (I := fun _ ms => Nested 0 ms ∧ Flat pictureName ms) ?_ (fun _ _ h _ => h.1) hd hb ⟨hd, hflat⟩
  rintro n ms ms' ⟨hnested, hflat⟩ ⟨p, b, q, rfl, -, hclosing, rfl⟩
  have hz := hflat.depth_eq_zero hclosing
  obtain ⟨j, hj, hzero⟩ := hnested.cut hz rfl
  obtain rfl := hzero rfl rfl
  exact ⟨hj, hflat.cut hz⟩

/-! ## A picture in a picture -/

/-- How many pictures begin. -/
def pictureCount (ms : List Mark) : Nat := ms.count (opening pictureName)

theorem pictureCount_lt {ms ms' : List Mark} (hc : CutsFirst ms ms') : pictureCount ms' < pictureCount ms := by
  obtain ⟨p, b, q, rfl, -, -, rfl⟩ := hc
  simp only [pictureCount, List.count_append, List.count_cons_self]
  have hle : List.count (opening pictureName) q ≤ List.count (opening pictureName) (closing pictureName :: q) :=
    List.count_le_count_cons
  omega

theorem opening_mem {ms : List Mark} (h : ShowsNesting isTaken pictureName ms) : opening pictureName ∈ ms := by
  obtain ⟨u, body, v, k, rfl, -, -, -⟩ := h
  simp

/-- If every picture gets its round, a shown picture that holds another leaves a stray. -/
theorem ends_pictures_stray (kit : Kit) {d : Row} (hd : Nested 0 d.marks) (hb : '[' ∉ d.source)
    (hnests : ShowsNesting isTaken pictureName d.marks)
    (hcap : pictureCount d.marks ≤ kit.settings.diagramIterationCap) :
    Bench.Ends (pictures kit d.source) (LeavesRow (ShowsStray isTaken)) := by
  -- with `n` rounds left there is a stray already, or the pictures are at most `n`
  refine ends_pictures kit (I := fun n ms => ShowsStray isTaken ms ∨
    ShowsNesting isTaken pictureName ms ∧ pictureCount ms ≤ n) ?_ ?_ hd hb (.inr ⟨hnests, hcap⟩)
  · intro n ms ms' hahead hc
    have hlt := pictureCount_lt hc
    obtain ⟨p, b, q, hm, hp, hclosing, rfl⟩ := hc
    rcases hahead with hs | ⟨hn, hle⟩
    · obtain ⟨e, he, -⟩ := depth_of_closing_not_mem hclosing 0
      exact .inl (hs.cut isTaken_pictureName he hm)
    · exact (hn.cut isTaken_pictureName hp hclosing hm).imp id fun hn' => ⟨hn', by omega⟩
  · rintro n ms (hs | ⟨hn, hle⟩) hstop
    · exact hs
    · have hmem := opening_mem hn
      have hpos : 0 < pictureCount ms := List.count_pos_iff.2 hmem
      exact hstop.elim (fun h => absurd hle (by omega)) fun h => absurd hmem h

end Extract.Diagram

end Galley
