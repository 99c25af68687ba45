import Galley.Bibliography
import Galley.Proofs.InlineRuns
import Galley.Proofs.Markers
import Galley.Proofs.PlainFormatting
import Galley.Proofs.StageTrades
import Mathlib.Data.List.Induction
import Mathlib.Data.List.Sort
/-!
# Numbered citations

The bibliographies of a text from left to right (`Shelved`) are taken out one by one, as long as no marker arises where
one was taken out (`Seamless`), and their keys are numbered in the order in which they first appear (`run_resolve`). A
citation becomes a bracket that depends on its keys alone, not on their order (`citationLabel_perm`), and it does not
matter where in the text a bibliography stands (`resolve_move`).
-/

namespace Galley

/-! ## Distinct elements -/

theorem nodup_eraseDups {α : Type} [BEq α] [LawfulBEq α] (l : List α) : l.eraseDups.Nodup := by
  generalize hn : l.length = n
  induction n using Nat.strongRecOn generalizing l with
  | _ n ih =>
    cases l with
    | nil => exact List.nodup_nil
    | cons a l =>
      rw [List.eraseDups_cons, List.nodup_cons]
      have hlength := List.length_filter_le (fun b => !b == a) l
      rw [List.length_cons] at hn
      refine ⟨fun h => ?_, ih _ (by omega) _ rfl⟩
      have hmem := List.mem_eraseDups.1 h
      simp at hmem

theorem eraseDups_append_singleton {α : Type} [BEq α] [LawfulBEq α] (l : List α) (a : α) :
    (l ++ [a]).eraseDups = if l.contains a then l.eraseDups else l.eraseDups ++ [a] := by
  have hone : [a].eraseDups = [a] := by rw [List.eraseDups_cons]; rfl
  rw [List.eraseDups_append, List.removeAll]
  by_cases h : a ∈ l <;> simp [h, hone]

namespace Bibliography

/-! ## Labels -/

/-- The keys of a citation as they are looked up, without empty ones. -/
def sought (keys : List Text) : List Text := (keys.map cleanKey).filter (!·.isEmpty)

/-- The bracket with the numbers and a question mark for each unknown key, or for no key. -/
def bracket (numbers : List Nat) (unknown : Nat) : Text :=
  "[" ++ Text.joinWith ", " (if numbers = [] ∧ unknown = 0 then [['?']] else
    numbers.map Text.ofNat ++ List.replicate unknown ['?']) ++ "]"

/-- The numbers are those of the known keys, in order and each once. -/
structure NumbersOf (numbering : Numbering) (keys : List Text) (numbers : List Nat) : Prop where
  sorted : numbers.Pairwise (· < ·)
  mem_iff : ∀ n, n ∈ numbers ↔ ∃ k ∈ sought keys, numbering.lookup k = some n

theorem NumbersOf.unique {numbering : Numbering} {keys keys' : List Text} {ns ns' : List Nat} (h : NumbersOf numbering keys ns)
    (h' : NumbersOf numbering keys' ns') (hkeys : ∀ k, k ∈ sought keys ↔ k ∈ sought keys') : ns = ns' := by
  have hmem : ∀ n, n ∈ ns ↔ n ∈ ns' := fun n => by
    rw [h.mem_iff, h'.mem_iff]
    simp only [hkeys]
  have hnodup {l : List Nat} (hl : l.Pairwise (· < ·)) : l.Nodup := hl.imp fun hlt => Nat.ne_of_lt hlt
  have hperm := (List.perm_ext_iff_of_nodup (hnodup h.sorted) (hnodup h'.sorted)).2 hmem
  exact hperm.eq_of_pairwise (fun a b _ _ hab hba => absurd (Nat.lt_trans hab hba) (Nat.lt_irrefl a)) h.sorted h'.sorted

/-- How many keys are unknown. -/
def unknown (numbering : Numbering) (keys : List Text) : Nat := (sought keys).countP fun k => (numbering.lookup k).isNone

/-- The numbers in a bracket are in order and distinct. -/
theorem citationLabel_eq (numbering : Numbering) (keys : List Text) :
    ∃ numbers, NumbersOf numbering keys numbers ∧ citationLabel numbering keys = bracket numbers (unknown numbering keys) := by
  have hknown : (resolveKeys numbering keys).1 = (sought keys).filterMap (numbering.lookup ·) := rfl
  have hunknown : (resolveKeys numbering keys).2.length = unknown numbering keys := List.countP_eq_length_filter.symm
  refine ⟨((sought keys).filterMap (numbering.lookup ·)).eraseDups.mergeSort (· ≤ ·), ⟨?_, fun n => ?_⟩, ?_⟩
  · have hle : (((sought keys).filterMap (numbering.lookup ·)).eraseDups.mergeSort (· ≤ ·)).Pairwise
        fun a b => decide (a ≤ b) = true :=
      List.pairwise_mergeSort (by simpa using fun a b c => Nat.le_trans) (by simpa using Nat.le_total) _
    have hnodup := (List.mergeSort_perm ((sought keys).filterMap (numbering.lookup ·)).eraseDups (· ≤ ·)).nodup_iff.2
      (nodup_eraseDups _)
    exact (hle.and hnodup).imp fun h => Nat.lt_of_le_of_ne (of_decide_eq_true h.1) h.2
  · rw [(List.mergeSort_perm _ _).mem_iff, List.mem_eraseDups, List.mem_filterMap]
  · rw [citationLabel]
    dsimp only
    rw [hknown, hunknown, label, bracket]
    simp only [List.isEmpty_iff, List.append_eq_nil_iff, List.map_eq_nil_iff, List.replicate_eq_nil_iff]

/-- Permuting the keys of a citation does not change its label. -/
theorem citationLabel_perm (numbering : Numbering) {keys keys' : List Text} (h : keys.Perm keys') :
    citationLabel numbering keys = citationLabel numbering keys' := by
  have hsought : (sought keys).Perm (sought keys') := (h.map cleanKey).filter _
  obtain ⟨ns, hns, hlabel⟩ := citationLabel_eq numbering keys
  obtain ⟨ns', hns', hlabel'⟩ := citationLabel_eq numbering keys'
  rw [hlabel, hlabel', hns.unique hns' fun k => hsought.mem_iff, unknown, unknown, hsought.countP_eq]

/-! ## Numbering -/

/-- The entries numbered by their keys: each key once, in the order of first appearance, with what is shown first for it. -/
def numbered (shown : List (Text × Text)) : List (Text × Nat × Text) :=
  ((shown.map (·.1)).eraseDups.zipIdx 1).map fun (k, i) => (k, i, (shown.lookup k).getD [])

theorem map_fst_numbered (shown : List (Text × Text)) : (numbered shown).map (·.1) = (shown.map (·.1)).eraseDups := by
  rw [numbered, List.map_map]
  exact List.zipIdx_map_fst 1 _

theorem lookup_isSome_iff_mem {β : Type} (l : List (Text × β)) (k : Text) : (l.lookup k).isSome = true ↔ k ∈ l.map (·.1) := by
  rw [List.lookup_isSome_iff]
  simp only [beq_iff_eq, List.mem_map]
  exact ⟨fun ⟨p, hp, he⟩ => ⟨p, hp, he.symm⟩, fun ⟨p, hp, he⟩ => ⟨p, hp, he.symm⟩⟩

/-- Another entry changes nothing if its key has one, and comes last otherwise. -/
theorem numbered_append (shown : List (Text × Text)) (k html : Text) : numbered (shown ++ [(k, html)]) =
    if k ∈ shown.map (·.1) then numbered shown else numbered shown ++ [(k, (shown.map (·.1)).eraseDups.length + 1, html)] := by
  have hold : ∀ p ∈ (shown.map (·.1)).eraseDups.zipIdx 1,
      (p.1, p.2, ((shown ++ [(k, html)]).lookup p.1).getD []) = (p.1, p.2, (shown.lookup p.1).getD []) := by
    intro p hp
    have hmem : p.1 ∈ shown.map (·.1) := List.mem_eraseDups.1 (List.fst_mem_of_mem_zipIdx hp)
    obtain ⟨h, hlookup⟩ := Option.isSome_iff_exists.1 ((lookup_isSome_iff_mem shown p.1).2 hmem)
    rw [List.lookup_append, hlookup, Option.some_or]
  rw [numbered, List.map_append, List.map_singleton, eraseDups_append_singleton]
  by_cases hk : k ∈ shown.map (·.1)
  · rw [if_pos (List.contains_iff_mem.2 hk), if_pos hk, numbered]
    exact List.map_congr_left hold
  · have hnone : shown.lookup k = none := by
      rw [← Option.not_isSome_iff_eq_none, lookup_isSome_iff_mem]
      exact hk
    have hnew : (shown ++ [(k, html)]).lookup k = some html := by
      rw [List.lookup_append, hnone, List.lookup_cons_self, Option.none_or]
    rw [if_neg (mt List.contains_iff_mem.1 hk), if_neg hk, List.zipIdx_append, List.map_append, List.map_congr_left hold,
      List.zipIdx_singleton, List.map_singleton]
    dsimp only
    rw [hnew, Option.getD_some, Nat.add_comm 1, numbered]

/-- Entries with what is shown for them, numbered behind others. -/
def addAll (old : List (Text × Nat × Text)) (entries : List (Text × Text)) : List (Text × Nat × Text) :=
  entries.foldl (fun numbered (key, html) => addEntry numbered key html) old

theorem addAll_append (old : List (Text × Nat × Text)) (entries more : List (Text × Text)) :
    addAll old (entries ++ more) = addAll (addAll old entries) more := List.foldl_append

theorem addAll_nil (shown : List (Text × Text)) : addAll [] shown = numbered shown := by
  induction shown using List.reverseRecOn with
  | nil => rfl
  | append_singleton shown entry ih =>
    obtain ⟨k, html⟩ := entry
    have hlength : (numbered shown).length = (shown.map (·.1)).eraseDups.length := by
      rw [← map_fst_numbered, List.length_map]
    have hmem : ((numbered shown).lookup k).isSome = true ↔ k ∈ shown.map (·.1) := by
      rw [lookup_isSome_iff_mem, map_fst_numbered, List.mem_eraseDups]
    rw [addAll_append, ih, numbered_append, ← hlength]
    exact if_congr hmem rfl rfl

/-! ## Taking bibliographies out -/

/-- The name of the environment that holds a bibliography. -/
def environmentName : Text := "thebibliography"

/-- The bibliographies that are taken out of a text one by one, and the text that is left: there begins none, or the
    first never closes. -/
inductive Taken : Text → List Environment → Text → Prop where
  | last {s : Text} (h : ∀ e, Environment.find environmentName s ≠ .ok (some e)) : Taken s [] s
  | more {s : Text} {e : Environment} {es : List Environment} {rest : Text}
      (h : Environment.find environmentName s = .ok (some e)) : Taken (e.before ++ e.after) es rest → Taken s (e :: es) rest

/-- The entries of some bibliographies. -/
def allEntries (es : List Environment) : List (Text × Text) := es.flatMap fun e => entries e.body

theorem allEntries_cons (e : Environment) (es : List Environment) : allEntries (e :: es) = entries e.body ++ allEntries es :=
  List.flatMap_cons

/-- The keys of the entries of some bibliographies. -/
def keysOf (es : List Environment) : List Text := es.flatMap fun e => (e.body.readAll entryStart).map cleanKey

theorem map_fst_entriesFrom (key : Option Text) (ps : List (Piece Text)) :
    (entriesFrom key ps).map (·.1) = key.toList ++ ps.filterMap Piece.value? := by
  induction ps generalizing key with
  | nil => cases key <;> rfl
  | cons p ps ih =>
    cases p with
    | hit k source => cases key <;> simp [entriesFrom, ih, Piece.value?]
    | char c =>
      cases key with
      | none => exact ih none
      | some k =>
        have hmore := ih (some k)
        rw [entriesFrom]
        split
        · rename_i h
          rw [h] at hmore
          exact hmore
        · rename_i h
          rw [h] at hmore
          cases hmore

theorem map_fst_allEntries (es : List Environment) : (allEntries es).map (·.1) = keysOf es := by
  have hbody (body : Text) : (entries body).map (·.1) = (body.readAll entryStart).map cleanKey := by
    have hkeys := congrArg (List.map cleanKey) (map_fst_entriesFrom none (body.cut entryStart))
    rw [List.map_map] at hkeys
    rw [entries, List.map_map]
    exact hkeys
  rw [allEntries, keysOf, List.map_flatMap]
  exact List.flatMap_congr fun e _ => hbody e.body

/-- What is shown for an entry: its text, or the key of an entry without text. -/
def shownText (kit : Kit) (entry : Text × Text) : Except Fault Text :=
  if entry.2.isEmpty then .ok (Html.escapeQuoted entry.1) else Inline.format kit.settings kit.engine entry.2

/-- An entry as it is shown, under its key. -/
def shown (kit : Kit) (entry : Text × Text) : Except Fault (Text × Text) := do
  let html ← shownText kit entry
  pure (entry.1, html)

theorem map_fst_shown {kit : Kit} {l news : List (Text × Text)} (h : l.mapM (shown kit) = .ok news) :
    news.map (·.1) = l.map (·.1) := by
  induction l generalizing news with
  | nil =>
    cases h
    rfl
  | cons entry l ih =>
    rw [List.mapM_cons] at h
    obtain ⟨new, hnew, h⟩ := bind_eq_ok h
    obtain ⟨news, hnews, h⟩ := bind_eq_ok h
    cases h
    obtain ⟨html, -, hhtml⟩ := bind_eq_ok hnew
    cases hhtml
    rw [List.map_cons, List.map_cons, ih hnews]

theorem length_lt_of_find {s : Text} {e : Environment} (h : Environment.find environmentName s = .ok (some e)) :
    (e.before ++ e.after).length < s.length := by
  have hsplits : e.before ++ e.source ++ e.after = s := Environment.find_splits h
  obtain ⟨x, hx⟩ := Environment.source_of_find (by decide) h
  rw [← hsplits, hx]
  simp only [List.length_append, List.length_cons]
  omega

/-- Bibliographies can be taken out of every text. -/
theorem exists_taken (s : Text) : ∃ es rest, Taken s es rest := by
  generalize hn : s.length = n
  induction n using Nat.strongRecOn generalizing s with
  | _ n ih =>
    by_cases h : ∃ e, Environment.find environmentName s = .ok (some e)
    · obtain ⟨e, he⟩ := h
      obtain ⟨es, rest, hes⟩ := ih _ (hn ▸ length_lt_of_find he) (e.before ++ e.after) rfl
      exact ⟨e :: es, rest, .more he hes⟩
    · exact ⟨[], s, .last fun e he => h ⟨e, he⟩⟩

theorem Taken.unique {s rest rest' : Text} {es es' : List Environment} (h : Taken s es rest) (h' : Taken s es' rest') :
    es = es' ∧ rest = rest' := by
  induction h generalizing es' with
  | last hnone =>
    cases h' with
    | last => exact ⟨rfl, rfl⟩
    | more he => exact absurd he (hnone _)
  | more he hes ih =>
    cases h' with
    | last hnone => exact absurd he (hnone _)
    | more he' hes' =>
      obtain rfl := Option.some.inj (Except.ok.inj (he.symm.trans he'))
      obtain ⟨rfl, rfl⟩ := ih hes'
      exact ⟨rfl, rfl⟩

theorem Taken.length_le {s rest : Text} {es : List Environment} (h : Taken s es rest) : es.length ≤ s.length := by
  induction h with
  | last => exact Nat.zero_le _
  | more he hes ih =>
    have := length_lt_of_find he
    rw [List.length_cons]
    omega

/-! ### From left to right -/

/-- The bibliographies of a text from left to right, and the text behind the last: there begins none, or the first never
    closes. -/
inductive Shelved : Text → List Environment → Text → Prop where
  | last {s : Text} (h : ∀ e, Environment.find environmentName s ≠ .ok (some e)) : Shelved s [] s
  | more {s : Text} {e : Environment} {es : List Environment} {tail : Text}
      (h : Environment.find environmentName s = .ok (some e)) : Shelved e.after es tail → Shelved s (e :: es) tail

/-- What stands between the bibliographies and in front of the first. -/
def between (es : List Environment) : Text := es.flatMap (·.before)

/-- In what is left without the bibliographies none begins in front of the text behind the last. -/
def Seamless (es : List Environment) (tail : Text) : Prop :=
  ∀ t, t <:+ between es → t ≠ [] → Marker.begins environmentName none (t ++ tail) = none

theorem slashed_begins : Text.Slashed (Marker.begins environmentName) := Marker.slashed_begins (by decide)

theorem misses_of_not_occurs {s : Text} (h : s.occurs (Marker.begins environmentName) = false) :
    Text.Misses (Marker.begins environmentName) s := by
  rw [Text.occurs, Option.isSome_eq_false_iff, Option.isNone_iff_eq_none] at h
  exact slashed_begins.forward.misses_of_find?_eq_none (slashed_begins.read_nil none) h

theorem seamless_of_not_occurs {es : List Environment} {tail : Text}
    (h : (between es ++ tail).occurs (Marker.begins environmentName) = false) : Seamless es tail := by
  rintro t ⟨f, hf⟩ -
  exact misses_of_not_occurs h none (t ++ tail) ⟨f, by rw [← List.append_assoc, hf]⟩

/-- Where none begins at a seam, the bibliographies taken out are those of the text from left to right. -/
theorem Shelved.taken_append {s tail : Text} {es : List Environment} (h : Shelved s es tail) (front : Text)
    (hfront : ∀ t, t <:+ front ++ between es → t ≠ [] → Marker.begins environmentName none (t ++ tail) = none) :
    ∃ es', Taken (front ++ s) es' (front ++ (between es ++ tail)) ∧ es'.map (·.body) = es.map (·.body) := by
  induction h generalizing front with
  | @last s hnone =>
    have hfind := Environment.find_append_of_none (by decide) hnone (a := front) fun t ht hne =>
      hfront t (by simpa [between] using ht) hne
    refine ⟨[], .last fun e he => hnone e (hfind ▸ he), rfl⟩
  | @more s e es tail he _ ih =>
    have hsplits : e.before ++ e.source ++ e.after = s := Environment.find_splits he
    obtain ⟨x, hx⟩ := Environment.source_of_find (by decide) he
    have hs : s = e.before ++ '\\' :: (x ++ e.after) := by rw [← hsplits, hx]; simp
    have hnone : ∀ t, t <:+ front → t ≠ [] → Marker.begins environmentName none (t ++ s) = none := by
      intro t ht hne
      obtain ⟨f, rfl⟩ := ht
      have hlong := hfront (t ++ between (e :: es)) ⟨f, by simp⟩ (by simp [hne])
      rw [hs, ← List.append_assoc, slashed_begins.read_append_slash (by simp [hne]), Option.map_eq_none_iff]
      cases hr : Marker.begins environmentName none (t ++ e.before) with
      | none => rfl
      | some r =>
        obtain ⟨a, rest⟩ := r
        have := slashed_begins.read_extend hr (between es ++ tail)
        rw [show t ++ e.before ++ (between es ++ tail) = t ++ between (e :: es) ++ tail by simp [between], hlong] at this
        cases this
    have hfind := Environment.find_append (by decide) he hnone []
    rw [List.append_nil] at hfind
    obtain ⟨es', htaken, hbodies⟩ := ih (front ++ e.before) (by simpa [between] using hfront)
    refine ⟨_ :: es', .more hfind ?_, ?_⟩
    · simpa [between] using htaken
    · rw [List.map_cons, List.map_cons, hbodies]

/-! ## Runs -/

section

open Bench (Comes)

variable {kit : Kit}

/-- Formats an entry. -/
def formatEntry (kit : Kit) : Text × Text → Bench (Text × Text) := fun (key, text) => do
  let html ← if text.isEmpty then pure (Html.escapeQuoted key) else Bench.inline kit text
  pure (key, html)

theorem comes_formatEntry (kit : Kit) (entry : Text × Text) : Comes (formatEntry kit entry) (shown kit entry) := by
  obtain ⟨key, text⟩ := entry
  unfold formatEntry shown shownText
  dsimp only
  split
  · exact .pure _
  · exact (Comes.inline kit text).bind fun html => .pure (key, html)

theorem comes_collect (kit : Kit) (old : List (Text × Nat × Text)) (body : Text) :
    Comes (collect kit old body) ((entries body).mapM (shown kit) >>= fun news => pure (addAll old news)) :=
  (Comes.mapM (comes_formatEntry kit) (entries body)).bind fun news => .pure (addAll old news)

/-- The entries of the bibliographies that are taken out are shown and added one after the other. -/
theorem comes_collectAll (kit : Kit) {s rest : Text} {es : List Environment} (h : Taken s es rest) (old : List (Text × Nat × Text))
    {n : Nat} (hn : es.length < n) :
    Comes (collectAll kit old s n) ((allEntries es).mapM (shown kit) >>= fun news => pure (addAll old news, rest)) := by
  induction h generalizing old n with
  | @last s hnone =>
    obtain ⟨n, rfl⟩ := Nat.exists_eq_succ_of_ne_zero (Nat.ne_of_gt hn)
    unfold collectAll
    split
    · exact (Comes.notify _).bind fun _ => .pure (old, s)
    · exact .pure (old, s)
    · exact absurd ‹_› (hnone _)
  | @more s e es rest he _ ih =>
    obtain ⟨n, rfl⟩ := Nat.exists_eq_succ_of_ne_zero (Nat.ne_of_gt (Nat.zero_lt_of_lt hn))
    have hfind : Environment.find "thebibliography" s = .ok (some e) := he
    have hall := (comes_collect kit old e.body).bind fun numbered => ih numbered (Nat.lt_of_succ_lt_succ hn)
    unfold collectAll
    rw [hfind, allEntries_cons, List.mapM_append]
    simpa only [bind_assoc, pure_bind, addAll_append] using hall

/-- What a resolution gives for a text that is left and the entries that are shown, with the table that holds the
    fragments of their tokens. -/
structure Resolves (absorb : Bool) (table : Block.Table) (rest : Text) (entries : List (Text × Text)) (r : Resolved) : Prop where
  /-- The distinct keys are numbered from one on in the order of their first entries. -/
  numbering : r.numbering = (entries.map (·.1)).eraseDups.zipIdx 1
  /-- The bibliography lists each key once, with its number and what is shown for its first entry. -/
  bibliography : r.bibliography = if entries = [] then none else
    some (if absorb then (table.absorb (bibliographyMarkup (numbered entries))).1 else bibliographyMarkup (numbered entries))
  /-- The commands that name a bibliography file are gone, and every citation has become its label. -/
  markup : r.markup = (((rest.removeAll bibliographyCommand).replaceAll citation (citationLabel r.numbering)).replaceAll
    looseGroup (citationLabel r.numbering)).replaceAll looseCommand (citationLabel r.numbering)

theorem numbered_eq_nil_iff (entries : List (Text × Text)) : numbered entries = [] ↔ entries = [] := by
  rw [← List.map_eq_nil_iff (f := (·.1)), map_fst_numbered]
  cases entries with
  | nil => simp
  | cons entry entries => simp [List.eraseDups_cons]

theorem numbering_numbered (entries : List (Text × Text)) :
    ((numbered entries).map fun (key, number, _) => (key, number)) = (entries.map (·.1)).eraseDups.zipIdx 1 := by
  rw [numbered, List.map_map]
  exact List.map_id _

theorem run_resolve {s rest : Text} {es : List Environment} (h : Taken s es rest) {entries : List (Text × Text)}
    (hentries : (allEntries es).mapM (shown kit) = .ok entries) (absorb : Bool) (b : BenchState) :
    ∃ r b', (resolve kit s absorb).run.run b = (.ok r, b') ∧ Resolves absorb b.table rest entries r := by
  obtain ⟨ns, hcollect⟩ := comes_collectAll kit h [] (Nat.lt_succ_of_le h.length_le) b
  rw [hentries] at hcollect
  change _ = (Except.ok (addAll [] entries, rest), _) at hcollect
  rw [addAll_nil] at hcollect
  unfold resolve
  rw [Bench.run_bind_of_ok hcollect]
  dsimp only
  rw [numbering_numbered]
  by_cases hnil : entries = []
  · have hempty : (numbered entries).isEmpty = true := List.isEmpty_iff.2 ((numbered_eq_nil_iff entries).2 hnil)
    rw [hempty]
    exact ⟨_, _, rfl, rfl, (if_pos hnil).symm, rfl⟩
  · have hfull : (numbered entries).isEmpty = false := by
      rw [← Bool.not_eq_true, List.isEmpty_iff, numbered_eq_nil_iff]
      exact hnil
    rw [hfull]
    cases absorb with
    | false => exact ⟨_, _, rfl, rfl, (if_neg hnil).symm, rfl⟩
    | true => exact ⟨_, _, rfl, rfl, (if_neg hnil).symm, rfl⟩

/-! ## Where a bibliography stands -/

/-- A bibliography among text that begins none is found with the text around it. -/
theorem find_bibliography {bib : Text} {e : Environment} (hbib : Environment.find environmentName bib = .ok (some e))
    (hbefore : e.before = []) (hafter : e.after = []) {a b : Text}
    (hnone : (a ++ b).occurs (Marker.begins environmentName) = false) :
    Environment.find environmentName (a ++ (bib ++ b)) = .ok (some { e with before := a, after := b }) := by
  obtain ⟨x, hx⟩ := Environment.source_of_find (by decide) hbib
  have hsplits : e.before ++ e.source ++ e.after = bib := Environment.find_splits hbib
  have hslash : bib = '\\' :: x := by rw [← hsplits, hbefore, hafter, hx]; simp
  have hmisses := misses_of_not_occurs hnone
  have hbegins : ∀ t, t <:+ a → t ≠ [] → Marker.begins environmentName none (t ++ bib) = none := by
    intro t ht hne
    rw [hslash, slashed_begins.read_append_slash hne, Option.map_eq_none_iff]
    cases hr : Marker.begins environmentName none t with
    | none => rfl
    | some r =>
      obtain ⟨u, rest⟩ := r
      have hlong := slashed_begins.read_extend hr b
      obtain ⟨f, rfl⟩ := ht
      rw [hmisses none (t ++ b) ⟨f, by simp⟩] at hlong
      cases hlong
  have hfind := Environment.find_append (by decide) hbib hbegins b
  rwa [hbefore, hafter, List.append_nil] at hfind

/-- Where in a text its one bibliography stands makes no difference. -/
theorem resolve_move (kit : Kit) (absorb : Bool) {bib : Text} {e : Environment}
    (hbib : Environment.find environmentName bib = .ok (some e)) (hbefore : e.before = []) (hafter : e.after = []) {a b : Text}
    (hnone : (a ++ b).occurs (Marker.begins environmentName) = false) :
    resolve kit (a ++ (bib ++ b)) absorb = resolve kit (bib ++ (a ++ b)) absorb := by
  have hleft : Environment.find "thebibliography" (a ++ (bib ++ b)) = _ := find_bibliography hbib hbefore hafter hnone
  have hright : Environment.find "thebibliography" ([] ++ (bib ++ (a ++ b))) = _ :=
    find_bibliography hbib hbefore hafter (a := []) hnone
  have hlength : (a ++ (bib ++ b)).length = (bib ++ (a ++ b)).length := by
    simp only [List.length_append]
    omega
  have hcollect : collectAll kit [] (a ++ (bib ++ b)) ((a ++ (bib ++ b)).length + 1) =
      collectAll kit [] (bib ++ (a ++ b)) ((bib ++ (a ++ b)).length + 1) := by
    rw [hlength, collectAll, collectAll, hleft]
    rw [List.nil_append] at hright
    rw [hright]
    rfl
  unfold resolve
  rw [hcollect]

/-- Citations are numbered consistently. Bibliographies are taken out of every text in one way (1). Where what is shown for
    their entries has no fault, the keys are numbered in the order of their first appearance, the bibliography lists
    them, and citations become their labels (2). These are the bibliographies of the text from left to right unless one
    begins at a seam (3). A label holds the numbers of the known keys in order, each once, and a question mark for each
    unknown key, whatever the order of the keys (4). It makes no difference where a bibliography stands (5). -/
theorem resolve_numbers (kit : Kit) (absorb : Bool) :
    (∀ s, ∃ es rest, Taken s es rest ∧ ∀ es' rest', Taken s es' rest' → es' = es ∧ rest' = rest) ∧
    (∀ s es rest entries, Taken s es rest → (allEntries es).mapM (shown kit) = .ok entries →
      entries.map (·.1) = keysOf es ∧ ∀ b : BenchState, ∃ r b', (resolve kit s absorb).run.run b = (.ok r, b') ∧
        Resolves absorb b.table rest entries r) ∧
    (∀ s es tail, Shelved s es tail → Seamless es tail →
      ∃ es', Taken s es' (between es ++ tail) ∧ es'.map (·.body) = es.map (·.body)) ∧
    (∀ numbering keys, (∃ numbers, NumbersOf numbering keys numbers ∧
        citationLabel numbering keys = bracket numbers (unknown numbering keys)) ∧
      ∀ keys' : List Text, keys.Perm keys' → citationLabel numbering keys' = citationLabel numbering keys) ∧
    ∀ (a b bib : Text) (e : Environment), Environment.find environmentName bib = .ok (some e) → e.before = [] →
      e.after = [] → (a ++ b).occurs (Marker.begins environmentName) = false →
      resolve kit (a ++ (bib ++ b)) absorb = resolve kit (bib ++ (a ++ b)) absorb := by
  refine ⟨fun s => ?_, fun s es rest entries h hentries => ⟨?_, run_resolve h hentries absorb⟩, fun s es tail h hseam => ?_,
    fun numbering keys => ⟨citationLabel_eq numbering keys, fun keys' hkeys => (citationLabel_perm numbering hkeys).symm⟩,
    fun a b bib e hbib hbefore hafter hnone => resolve_move kit absorb hbib hbefore hafter hnone⟩
  · obtain ⟨es, rest, h⟩ := exists_taken s
    exact ⟨es, rest, h, fun es' rest' h' => h'.unique h⟩
  · rw [map_fst_shown hentries, map_fst_allEntries]
  · exact h.taken_append [] hseam

/-- A bibliography with two entries for one key. -/
def twiceKeyed : Environment :=
  ⟨environmentName, [], "\\begin\x7bthebibliography\x7d",
    "\x7b9\x7d\\bibitem\x7ba\x7d A.\\bibitem\x7bb\x7d B.\\bibitem\x7ba\x7d C.", "\\end\x7bthebibliography\x7d", []⟩

theorem find_twiceKeyed : Environment.find environmentName twiceKeyed.source = .ok (some twiceKeyed) := rfl

/-- The bibliography between two citations. -/
theorem resolve_numbers_twiceKeyed :
    (∃ r b', (resolve {} ("\\cite\x7bb,a\x7d" ++ (twiceKeyed.source ++ "\\cite\x7bc\x7d"))).run.run {} = (.ok r, b') ∧
      r.numbering = [("a".toList, 1), ("b".toList, 2)] ∧ r.bibliography.isSome) ∧
    (∃ es, Taken ("\\cite\x7bb,a\x7d" ++ (twiceKeyed.source ++ "\\cite\x7bc\x7d")) es "\\cite\x7bb,a\x7d\\cite\x7bc\x7d" ∧
      es.map (·.body) = [twiceKeyed.body]) ∧
    citationLabel [("a".toList, 1), ("b".toList, 2)] (texts ["b", "a"]) =
      citationLabel [("a".toList, 1), ("b".toList, 2)] (texts ["a", "b"]) ∧
    resolve {} ("\\cite\x7bb,a\x7d" ++ (twiceKeyed.source ++ "\\cite\x7bc\x7d")) =
      resolve {} (twiceKeyed.source ++ ("\\cite\x7bb,a\x7d" ++ "\\cite\x7bc\x7d")) := by
  obtain ⟨-, hrun, hshelf, hlabels, hmove⟩ := resolve_numbers {} true
  have hlast {s : Text} (h : s.occurs (Marker.begins environmentName) = false) :
      ∀ e, Environment.find environmentName s ≠ .ok (some e) := by
    intro e he
    rw [Text.occurs, Option.isSome_eq_false_iff, Option.isNone_iff_eq_none] at h
    rw [Environment.find, h] at he
    cases he
  have hfind := find_bibliography find_twiceKeyed rfl rfl (a := "\\cite\x7bb,a\x7d") (b := "\\cite\x7bc\x7d") (by decide)
  have hshown (key text : Text) (htext : Within isPlainChar text) (hne : text.isEmpty = false) :
      shown {} (key, text) = .ok (key, Inline.dress text) := by
    rw [shown, shownText, hne, if_neg Bool.false_ne_true, Inline.format_plain htext]
    rfl
  refine ⟨?_, ?_, (hlabels _ _).2 _ (.swap _ _ _), hmove _ _ _ _ find_twiceKeyed rfl rfl (by decide)⟩
  · have hentries : (allEntries [{ twiceKeyed with before := "\\cite\x7bb,a\x7d", after := "\\cite\x7bc\x7d" }]).mapM (shown {}) =
        .ok [("a".toList, "A.".toList), ("b".toList, "B.".toList), ("a".toList, "C.".toList)] := by
      change [("a".toList, "A.".toList), ("b".toList, "B.".toList), ("a".toList, "C.".toList)].mapM (shown {}) = _
      simp only [List.mapM_cons, List.mapM_nil]
      rw [hshown _ _ (by decide) rfl, hshown _ _ (by decide) rfl, hshown _ _ (by decide) rfl]
      rfl
    obtain ⟨-, hreport⟩ := hrun _ _ _ _ (.more hfind (.last (hlast (by decide)))) hentries
    obtain ⟨r, b', hr, hresolves⟩ := hreport {}
    have hnumbering : r.numbering = [("a".toList, 1), ("b".toList, 2)] := hresolves.numbering
    refine ⟨r, b', hr, hnumbering, ?_⟩
    rw [hresolves.bibliography, if_neg (List.cons_ne_nil _ _), Option.isSome_some]
  · exact hshelf _ _ _ (.more hfind (.last (hlast (by decide)))) (seamless_of_not_occurs (by decide))

/-- A fault in what is shown for the entries ends the resolution. -/
theorem run_resolve_fault {s rest : Text} {es : List Environment} (h : Taken s es rest) {fault : Fault}
    (hentries : (allEntries es).mapM (shown kit) = .error fault) (absorb : Bool) (b : BenchState) :
    ∃ b', (resolve kit s absorb).run.run b = (.error fault, b') := by
  have hcollect := comes_collectAll kit h [] (Nat.lt_succ_of_le h.length_le)
  rw [hentries] at hcollect
  obtain ⟨ns, hrun⟩ := Comes.stop hcollect _ b
  exact ⟨_, hrun⟩

/-- A closed bibliography with an entry behind a begin marker that is not closed. -/
def unclosed : Text :=
  "\\begin\x7bthebibliography\x7d\x7b9\x7d\\bibitem\x7ba\x7d A. " ++
    "\\begin\x7bthebibliography\x7d\x7b9\x7d\\bibitem\x7bb\x7d B.\\end\x7bthebibliography\x7d"

/-- A bibliography with a mark in its entry that names no piece. -/
def marked : Environment :=
  ⟨environmentName, [], "\\begin\x7bthebibliography\x7d", "\\bibitem\x7ba\x7d" ++ Inline.Stash.mark 0,
    "\\end\x7bthebibliography\x7d", []⟩

/-- An inner bibliography that closes is not taken out where an outer one never closes, and an entry with a mark of its own
    is not shown. -/
theorem unclosed_and_marked :
    ((∃ e, Environment.find environmentName
      "\\begin\x7bthebibliography\x7d\x7b9\x7d\\bibitem\x7bb\x7d B.\\end\x7bthebibliography\x7d" = .ok (some e) ∧
        (e.body.readAll entryStart).map cleanKey = texts ["b"]) ∧
      ∃ r b', (resolve {} unclosed).run.run {} = (.ok r, b') ∧ r.numbering = []) ∧
    Environment.find environmentName marked.source = .ok (some marked) ∧
      ∃ b', (resolve {} marked.source).run.run {} = (.error .pieceMissing, b') := by
  refine ⟨⟨⟨_, rfl, by decide⟩, ?_⟩, rfl, ?_⟩
  · have hnone : ∀ e, Environment.find environmentName unclosed ≠ .ok (some e) := by
      intro e h
      have herror : Environment.find environmentName unclosed = .error _ := rfl
      cases herror.symm.trans h
    obtain ⟨r, b', hrun, hr⟩ := @run_resolve {} _ _ _ (.last hnone) [] rfl true {}
    exact ⟨r, b', hrun, hr.numbering⟩
  · have hnone : ∀ e, Environment.find environmentName [] ≠ .ok (some e) := fun e h => by cases h
    have htaken : Taken marked.source [marked] [] := .more rfl (.last hnone)
    refine run_resolve_fault htaken ?_ true {}
    change [("a".toList, Inline.Stash.mark 0)].mapM (shown {}) = _
    rw [List.mapM_cons, shown, shownText, if_neg (by decide), Inline.format_mark]
    rfl

end

end Bibliography

end Galley
