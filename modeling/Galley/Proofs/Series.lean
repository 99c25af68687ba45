import Galley.Meters
import Mathlib
/-!
# Series of counters

A series is a name with a map of labels. A counter is found again by the text that these are shown as (`Series.key`), so
a run of additions and resets comes to one counter for each text that has been used since the last reset, with the sum
of all that was added under it (`Holds.run`). A value in double quotes may hold the marks that separate labels: two series
may have one text, and then they share a counter. Where names hold no opening brace and labels no quote, the text
gives name and labels away (`Series.key_eq_iff`).
-/

namespace Galley

/-! ## The order of texts -/

namespace Text

theorem le_total (s t : Text) : (le s t || le t s) = true := by
  induction s generalizing t with
  | nil => rfl
  | cons a s ih =>
    cases t with
    | nil => rfl
    | cons b t =>
      have := ih t
      rcases lt_trichotomy a b with h | rfl | h
      · simp [le, h]
      · simpa [le] using this
      · simp [le, h]

theorem le_trans (s t u : Text) (hst : le s t = true) (htu : le t u = true) : le s u = true := by
  induction s generalizing t u with
  | nil => rfl
  | cons a s ih =>
    cases t with
    | nil => cases hst
    | cons b t =>
      cases u with
      | nil => cases htu
      | cons c u =>
        simp only [le, Bool.or_eq_true, decide_eq_true_eq, Bool.and_eq_true] at hst htu ⊢
        rcases hst with hab | ⟨rfl, hst⟩
        · rcases htu with hbc | ⟨rfl, -⟩
          · exact .inl (hab.trans hbc)
          · exact .inl hab
        · rcases htu with hac | ⟨rfl, htu⟩
          · exact .inl hac
          · exact .inr ⟨rfl, ih t u hst htu⟩

theorem le_antisymm (s t : Text) (hst : le s t = true) (hts : le t s = true) : s = t := by
  induction s generalizing t with
  | nil =>
    cases t with
    | nil => rfl
    | cons b t => cases hts
  | cons a s ih =>
    cases t with
    | nil => cases hst
    | cons b t =>
      simp only [le, Bool.or_eq_true, decide_eq_true_eq, Bool.and_eq_true] at hst hts
      rcases hst with hab | ⟨rfl, hst⟩
      · rcases hts with hba | ⟨rfl, -⟩
        · exact absurd hab (lt_asymm hba)
        · exact absurd hab (lt_irrefl b)
      · rcases hts with haa | ⟨-, hts⟩
        · exact absurd haa (lt_irrefl a)
        · rw [ih t hst hts]

end Text

namespace Meters

/-! ## Lists of keys and values -/

section Keyed

variable {α : Type} {k k' : Text} {f : Option α → α}

theorem lookup_change_self (k : Text) (f : Option α → α) (l : List (Text × α)) :
    (change k f l).lookup k = some (f (l.lookup k)) := by
  induction l with
  | nil => simp [change]
  | cons a l ih =>
    obtain ⟨k', v⟩ := a
    by_cases hk : k' = k
    · simp [change, hk]
    · have hne : (k == k') = false := by simpa using Ne.symm hk
      simp [change, hk, List.lookup_cons, hne, ih]

theorem lookup_change_of_ne (h : k' ≠ k) (f : Option α → α) (l : List (Text × α)) :
    (change k f l).lookup k' = l.lookup k' := by
  have hne : (k' == k) = false := by simpa using h
  induction l with
  | nil => simp [change, List.lookup_cons, hne]
  | cons a l ih =>
    obtain ⟨k'', v⟩ := a
    by_cases hk : k'' = k
    · simp [change, hk, List.lookup_cons, hne]
    · simp [change, hk, List.lookup_cons, ih]

/-- A change adds its key behind the others if it is new. -/
theorem map_fst_change (k : Text) (f : Option α → α) (l : List (Text × α)) :
    (change k f l).map Prod.fst = if k ∈ l.map Prod.fst then l.map Prod.fst else l.map Prod.fst ++ [k] := by
  induction l with
  | nil => rfl
  | cons a l ih =>
    obtain ⟨k', v⟩ := a
    by_cases hk : k' = k
    · simp [change, hk]
    · rw [change, if_neg hk, List.map_cons, ih]
      split <;> rename_i h <;> simp [h, Ne.symm hk]

theorem nodup_change {l : List (Text × α)} (h : (l.map Prod.fst).Nodup) (k : Text) (f : Option α → α) :
    ((change k f l).map Prod.fst).Nodup := by
  rw [map_fst_change]
  split <;> rename_i hk
  · exact h
  · rw [List.nodup_append]
    refine ⟨h, List.nodup_singleton k, ?_⟩
    rintro a ha b hb rfl
    exact hk (List.mem_singleton.1 hb ▸ ha)

theorem lookup_eq_some_iff {l : List (Text × α)} (h : (l.map Prod.fst).Nodup) {a : α} :
    l.lookup k = some a ↔ (k, a) ∈ l := by
  induction l with
  | nil => simp
  | cons x l ih =>
    obtain ⟨k', a'⟩ := x
    obtain ⟨hnew, hrest⟩ := List.nodup_cons.1 h
    by_cases hk : k = k'
    · subst hk
      have hmem : (k, a) ∉ l := fun hm => hnew (List.mem_map.2 ⟨_, hm, rfl⟩)
      simp [hmem, eq_comm]
    · have hne : (k == k') = false := by simpa using hk
      simp [List.lookup_cons, hne, ih hrest, hk]

end Keyed

/-- Adding to a counter adds to its value. -/
theorem counterValue_count_self (m : Meters) (name : Text) (value : Float) (labels : Labels) :
    (m.count name value labels).counterValue name labels = m.counterValue name labels + value := by
  simp only [count, counterValue, Counters.value, Counters.add, lookup_change_self]
  cases m.counters.lookup (key name labels) <;> rfl

theorem counterValue_count_of_ne {name name' : Text} {labels labels' : Labels} (h : key name labels ≠ key name' labels')
    (m : Meters) (value : Float) : (m.count name' value labels').counterValue name labels = m.counterValue name labels := by
  simp only [count, counterValue, Counters.value, Counters.add, lookup_change_of_ne h]

/-! ## Series and their texts -/

/-- A name with a label for each of some keys. -/
structure Series where
  name : Text
  labels : Labels
  distinct : (labels.map Prod.fst).Nodup

namespace Series

variable {s t : Series}

/-- The text that a counter of the series is found by. -/
def key (s : Series) : Text := Meters.key s.name s.labels

/-- The same name and the same map of labels: the order of the labels does not matter. -/
def Same (s t : Series) : Prop := s.name = t.name ∧ s.labels.Perm t.labels

instance (s t : Series) : Decidable (s.Same t) := inferInstanceAs (Decidable (_ ∧ _))

theorem Same.symm (h : s.Same t) : t.Same s := ⟨h.1.symm, h.2.symm⟩

theorem pairwise_sorted (labels : Labels) :
    (labels.mergeSort fun a b => Text.le a.1 b.1).Pairwise fun a b => Text.le a.1 b.1 = true :=
  List.pairwise_mergeSort (fun a b c => Text.le_trans a.1 b.1 c.1) (fun a b => Text.le_total a.1 b.1) labels

/-- Labels with distinct keys have one order. -/
theorem mergeSort_eq {labels labels' : Labels} (h : labels.Perm labels') (hdistinct : (labels.map Prod.fst).Nodup) :
    (labels.mergeSort fun a b => Text.le a.1 b.1) = labels'.mergeSort fun a b => Text.le a.1 b.1 := by
  have hperm := (List.mergeSort_perm labels fun a b => Text.le a.1 b.1).trans
    (h.trans (List.mergeSort_perm labels' fun a b => Text.le a.1 b.1).symm)
  refine hperm.eq_of_pairwise (fun a b ha hb hab hba => ?_) (pairwise_sorted labels) (pairwise_sorted labels')
  have ha := (List.mergeSort_perm labels _).subset ha
  have hb := h.symm.subset ((List.mergeSort_perm labels' _).subset hb)
  exact List.inj_on_of_nodup_map hdistinct ha hb (Text.le_antisymm a.1 b.1 hab hba)

theorem Same.key_eq (h : s.Same t) : s.key = t.key := by
  obtain ⟨hname, hlabels⟩ := h
  have hempty : s.labels.isEmpty = t.labels.isEmpty := by
    rw [Bool.eq_iff_iff, List.isEmpty_iff_length_eq_zero, List.isEmpty_iff_length_eq_zero, hlabels.length_eq]
  rw [key, key, Meters.key, Meters.key, labelSet, labelSet, hname, hempty, mergeSort_eq hlabels s.distinct]

/-! ### Texts that give their series away -/

/-- A label as it stands behind a name. -/
def shown (l : Text × Text) : Text := l.1 ++ '=' :: '"' :: (l.2 ++ ['"'])

theorem labelSet_nil : labelSet [] = [] := rfl

theorem labelSet_eq {labels : Labels} (h : labels ≠ []) : labelSet labels =
    '{' :: (Text.joinWith [','] ((labels.mergeSort fun a b => Text.le a.1 b.1).map shown) ++ ['}']) := by
  have hshown : (fun l : Text × Text => l.1 ++ "=\"".toList ++ l.2 ++ "\"".toList) = shown := by
    funext l
    simp [shown]
  rw [labelSet, if_neg (by simpa using h)]
  change '{' :: (Text.joinWith [','] (List.map (fun l : Text × Text => _) _) ++ ['}']) = _
  rw [hshown]

theorem append_cons_cancel {c : Char} {a b u v : Text} (ha : c ∉ a) (hb : c ∉ b) (h : a ++ c :: u = b ++ c :: v) :
    a = b ∧ u = v := by
  induction a generalizing b with
  | nil =>
    cases b with
    | nil => exact ⟨rfl, (List.cons.inj h).2⟩
    | cons d b => exact absurd (List.cons.inj h).1 fun he => hb (he ▸ List.mem_cons_self)
  | cons d a ih =>
    cases b with
    | nil => exact absurd (List.cons.inj h).1 fun he => ha (he ▸ List.mem_cons_self)
    | cons e b =>
      obtain ⟨rfl, htail⟩ := List.cons.inj h
      obtain ⟨rfl, huv⟩ := ih (fun hm => ha (List.mem_cons_of_mem _ hm)) (fun hm => hb (List.mem_cons_of_mem _ hm)) htail
      exact ⟨rfl, huv⟩

/-- A label without quotes is read off, whatever follows it. -/
theorem shown_append_inj {l m : Text × Text} (hl : '"' ∉ l.1 ∧ '"' ∉ l.2) (hm : '"' ∉ m.1 ∧ '"' ∉ m.2) {u v : Text}
    (h : shown l ++ u = shown m ++ v) : l = m ∧ u = v := by
  have hshown (l : Text × Text) (u : Text) : shown l ++ u = (l.1 ++ ['=']) ++ '"' :: (l.2 ++ '"' :: u) := by simp [shown]
  have hkey {k : Text} (hk : '"' ∉ k) : '"' ∉ k ++ ['='] := by simpa using hk
  rw [hshown, hshown] at h
  obtain ⟨hk, h⟩ := append_cons_cancel (hkey hl.1) (hkey hm.1) h
  obtain ⟨hv, huv⟩ := append_cons_cancel hl.2 hm.2 h
  exact ⟨Prod.ext (List.append_cancel_right hk) hv, huv⟩

theorem joinWith_shown_inj {ls ms : Labels} (hls : ∀ l ∈ ls, '"' ∉ l.1 ∧ '"' ∉ l.2) (hms : ∀ m ∈ ms, '"' ∉ m.1 ∧ '"' ∉ m.2)
    (h : Text.joinWith [','] (ls.map shown) = Text.joinWith [','] (ms.map shown)) : ls = ms := by
  -- behind its first label a row shows nothing or a comma and the others
  have hcons (l : Text × Text) (ls : Labels) : ∃ u, Text.joinWith [','] ((l :: ls).map shown) = shown l ++ u ∧
      (ls = [] ∧ u = [] ∨ ls ≠ [] ∧ u = ',' :: Text.joinWith [','] (ls.map shown)) := by
    cases ls with
    | nil => exact ⟨[], by simp [Text.joinWith], .inl ⟨rfl, rfl⟩⟩
    | cons m ls => exact ⟨_, by simp [Text.joinWith], .inr ⟨List.cons_ne_nil _ _, rfl⟩⟩
  have hne (l : Text × Text) (u : Text) : shown l ++ u ≠ [] := by simp [shown]
  induction ls generalizing ms with
  | nil =>
    cases ms with
    | nil => rfl
    | cons m ms =>
      obtain ⟨u, hu, -⟩ := hcons m ms
      exact absurd (hu.symm.trans h.symm) (hne m u)
  | cons l ls ih =>
    obtain ⟨u, hu, hrest⟩ := hcons l ls
    cases ms with
    | nil => exact absurd (hu.symm.trans h) (hne l u)
    | cons m ms =>
      obtain ⟨v, hv, hrest'⟩ := hcons m ms
      rw [hu, hv] at h
      obtain ⟨rfl, huv⟩ := shown_append_inj (hls l List.mem_cons_self) (hms m List.mem_cons_self) h
      rcases hrest with ⟨rfl, rfl⟩ | ⟨-, rfl⟩ <;> rcases hrest' with ⟨rfl, rfl⟩ | ⟨-, rfl⟩
      · rfl
      · cases huv
      · cases huv
      · rw [ih (fun l hl => hls l (List.mem_cons_of_mem _ hl)) (fun m hm => hms m (List.mem_cons_of_mem _ hm))
          (List.cons.inj huv).2]

/-- The name holds no opening brace and the labels no quote. -/
structure Plain (s : Series) : Prop where
  name : '{' ∉ s.name
  labels : ∀ l ∈ s.labels, '"' ∉ l.1 ∧ '"' ∉ l.2

instance (s : Series) : Decidable s.Plain :=
  decidable_of_iff ('{' ∉ s.name ∧ ∀ l ∈ s.labels, '"' ∉ l.1 ∧ '"' ∉ l.2) ⟨fun h => ⟨h.1, h.2⟩, fun h => ⟨h.1, h.2⟩⟩

/-- The text of a plain series stands for no other one. -/
theorem key_eq_iff (hs : s.Plain) (ht : t.Plain) : s.key = t.key ↔ s.Same t := by
  refine ⟨fun h => ?_, Same.key_eq⟩
  unfold key Meters.key at h
  by_cases hsl : s.labels = [] <;> by_cases htl : t.labels = []
  · rw [hsl, htl, labelSet_nil, List.append_nil, List.append_nil] at h
    exact ⟨h, by rw [hsl, htl]⟩
  · rw [hsl, labelSet_nil, List.append_nil, labelSet_eq htl] at h
    exact absurd (h ▸ by simp) hs.name
  · rw [htl, labelSet_nil, List.append_nil, labelSet_eq hsl] at h
    exact absurd (h ▸ by simp) ht.name
  · rw [labelSet_eq hsl, labelSet_eq htl] at h
    obtain ⟨hname, h⟩ := append_cons_cancel hs.name ht.name h
    have hsorted (labels : Labels) := List.mergeSort_perm labels fun a b => Text.le a.1 b.1
    have hlabels := joinWith_shown_inj (fun l hl => hs.labels l ((hsorted s.labels).subset hl))
      (fun m hm => ht.labels m ((hsorted t.labels).subset hm)) (List.append_cancel_right h)
    exact ⟨hname, (hsorted s.labels).symm.trans (hlabels ▸ hsorted t.labels)⟩

end Series

/-! ## Requests -/

/-- The labels of a request, whose path may hold anything. -/
def requestLabels (method path status : Text) : Labels := [("method", method), ("path", path), ("status", status)]

/-- The text of a request gives it away, whatever its path. -/
theorem key_request_inj {method method' path path' status status' : Text} (hm : '"' ∉ method) (hm' : '"' ∉ method')
    (hs : '"' ∉ status) (hs' : '"' ∉ status') {name : Text}
    (h : key name (requestLabels method path status) = key name (requestLabels method' path' status')) :
    method = method' ∧ path = path' ∧ status = status' := by
  have hkey (m p s : Text) : key name (requestLabels m p s) = name ++ ("\x7bmethod=\"".toList ++
      (m ++ '"' :: (",path=\"".toList ++ ((p ++ "\",status=".toList ++ '"' :: s) ++ "\"\x7d".toList)))) := by
    have hne : requestLabels m p s ≠ [] := List.cons_ne_nil _ _
    have hsorted : (requestLabels m p s).mergeSort (fun a b => Text.le a.1 b.1) = requestLabels m p s := by
      refine List.mergeSort_of_pairwise ?_
      simp only [requestLabels, List.pairwise_cons, List.mem_cons, List.not_mem_nil, or_false, forall_eq_or_imp, forall_eq,
        false_implies, implies_true, and_true, List.Pairwise.nil]
      decide
    rw [key, Series.labelSet_eq hne, hsorted]
    simp [requestLabels, Series.shown, Text.joinWith]
  rw [hkey, hkey] at h
  obtain ⟨rfl, hrest⟩ := Series.append_cons_cancel hm hm' (List.append_cancel_left (List.append_cancel_left h))
  -- the method ends at the first quote, and the status begins at the last one
  have hlast := congrArg List.reverse (List.append_cancel_right (List.append_cancel_left hrest))
  simp only [List.reverse_append, List.reverse_cons, List.append_assoc, List.singleton_append] at hlast
  obtain ⟨hstatus, hpath⟩ := Series.append_cons_cancel (by simpa using hs) (by simpa using hs') hlast
  exact ⟨rfl, List.reverse_injective (List.append_cancel_left hpath), List.reverse_injective hstatus⟩

/-- A request counts for no request of another kind, whatever path its client chose. -/
theorem counterValue_countRequest_of_ne (m : Meters) {method method' path path' status status' : Text} (milliseconds : Float)
    (hm : '"' ∉ method) (hm' : '"' ∉ method') (hs : '"' ∉ status) (hs' : '"' ∉ status')
    (h : ¬(method = method' ∧ pathPattern path = pathPattern path' ∧ status = status')) :
    (m.countRequest method' path' status' milliseconds).counterValue "http_requests_total"
        (requestLabels method (pathPattern path) status) =
      m.counterValue "http_requests_total" (requestLabels method (pathPattern path) status) :=
  counterValue_count_of_ne (fun heq => h (key_request_inj hm hm' hs hs' heq)) m 1

/-! ## Runs of additions and resets -/

variable {α : Type}

inductive Step (α : Type) where
  | add (series : Series) (value : α)
  | reset

/-- The entries behind a step. -/
def Step.enter (entries : List (Series × α)) : Step α → List (Series × α)
  | add s value => entries ++ [(s, value)]
  | reset => []

/-- What has been added since the last reset. -/
def Step.entered (steps : List (Step α)) : List (Series × α) := steps.foldl Step.enter []

/-- The sum of what has been added under some series. -/
def total [Add α] [Zero α] (p : Series → Prop) [DecidablePred p] (entries : List (Series × α)) : α :=
  ((entries.filter fun e => p e.1).map Prod.snd).sum

/-- The counter has the name and the labels of the series. -/
def Counter.Of (c : Counter α) (s : Series) : Prop := c.name = s.name ∧ c.labels.Perm s.labels

instance (c : Counter α) (s : Series) : Decidable (c.Of s) := inferInstanceAs (Decidable (_ ∧ _))

namespace Counters

/-- The counters behind a step. -/
def take [Add α] [OfNat α 0] (cs : Counters α) : Step α → Counters α
  | .add s value => cs.add s.name value s.labels
  | .reset => []

/-- The counters after steps taken one after the other. -/
def run [Add α] [OfNat α 0] (steps : List (Step α)) : Counters α := steps.foldl take []

/-- The counter that entries under one text come to: named by the first of them. -/
def ofEntries [Add α] [Zero α] : List (Series × α) → Option (Counter α)
  | [] => none
  | (s, value) :: entries => some ⟨s.name, s.labels, value + (entries.map Prod.snd).sum⟩

/-- For each text there is one counter, with what has been added under it. -/
structure Holds [Add α] [Zero α] (cs : Counters α) (entries : List (Series × α)) : Prop where
  nodup : (cs.map Prod.fst).Nodup
  lookup : ∀ k, cs.lookup k = ofEntries (entries.filter fun e => e.1.key = k)

namespace Holds

variable {cs : Counters α} {entries : List (Series × α)}

theorem empty [AddMonoid α] : Holds ([] : Counters α) [] where
  nodup := List.nodup_nil
  lookup _ := rfl

theorem take [AddMonoid α] (h : Holds cs entries) (step : Step α) : Holds (cs.take step) (step.enter entries) := by
  cases step with
  | reset => exact empty
  | add s value =>
    refine ⟨nodup_change h.nodup _ _, fun k => ?_⟩
    have hkey : Meters.key s.name s.labels = s.key := rfl
    rw [Counters.take, Counters.add, hkey, Step.enter, List.filter_append]
    by_cases hk : s.key = k
    · subst hk
      rw [lookup_change_self, h.lookup, List.filter_cons_of_pos (by simp)]
      cases entries.filter fun e => e.1.key = s.key with
      | nil => simp [ofEntries]
      | cons e entries => simp [ofEntries, add_assoc]
    · rw [lookup_change_of_ne (Ne.symm hk), h.lookup, List.filter_cons_of_neg (by simpa using hk), List.filter_nil,
        List.append_nil]

theorem foldl [AddMonoid α] (steps : List (Step α)) (h : Holds cs entries) :
    Holds (steps.foldl Counters.take cs) (steps.foldl Step.enter entries) := by
  induction steps generalizing cs entries with
  | nil => exact h
  | cons step steps ih => exact ih (h.take step)

theorem run [AddMonoid α] (steps : List (Step α)) : Holds (Counters.run steps) (Step.entered steps) := empty.foldl steps

section Facts

variable [AddMonoid α] (h : Holds cs entries)

include h

theorem value_eq (q : Series) : cs.value q.name q.labels = total (fun s => s.key = q.key) entries := by
  have hlookup : cs.lookup (Meters.key q.name q.labels) = ofEntries (entries.filter fun e => e.1.key = q.key) := h.lookup q.key
  rw [Counters.value, hlookup, total]
  cases entries.filter fun e => e.1.key = q.key with
  | nil => rfl
  | cons e entries => simp [ofEntries]

/-- A counter is named by a series that has been used and is found by its text. -/
theorem mem {k : Text} {c : Counter α} (hc : (k, c) ∈ cs) :
    ∃ s value rest, (entries.filter fun e => e.1.key = k) = (s, value) :: rest ∧ s.key = k ∧ c.name = s.name ∧ c.labels = s.labels := by
  have hlookup := (lookup_eq_some_iff h.nodup).2 hc
  rw [h.lookup] at hlookup
  cases hentries : entries.filter fun e => e.1.key = k with
  | nil =>
    rw [hentries] at hlookup
    cases hlookup
  | cons e rest =>
    obtain ⟨s, value⟩ := e
    rw [hentries] at hlookup
    obtain rfl := Option.some.inj hlookup
    have hkey : s.key = k := by
      have hmem : (s, value) ∈ entries.filter fun e => e.1.key = k := hentries ▸ List.mem_cons_self
      simpa using (List.mem_filter.1 hmem).2
    exact ⟨s, value, rest, rfl, hkey, rfl, rfl⟩

/-- What is listed of a counter is what is found under its name and labels. -/
theorem value_listed {k : Text} {c : Counter α} (hc : (k, c) ∈ cs) : c.value = cs.value c.name c.labels := by
  obtain ⟨s, value, rest, -, hkey, hname, hlabels⟩ := h.mem hc
  have hlookup : cs.lookup (Meters.key c.name c.labels) = some c := by
    have hfound := (lookup_eq_some_iff h.nodup).2 hc
    rw [← hkey] at hfound
    rw [hname, hlabels]
    exact hfound
  rw [Counters.value, hlookup]

theorem key_of {k : Text} {c : Counter α} (hc : (k, c) ∈ cs) {s : Series} (hs : c.Of s) : s.key = k := by
  obtain ⟨t, value, rest, -, hkey, hname, hlabels⟩ := h.mem hc
  have hsame : t.Same s := ⟨hname ▸ hs.1, hlabels ▸ hs.2⟩
  rw [← hkey, hsame.key_eq]

/-- No series has two counters. -/
theorem countP_le_one (s : Series) : (cs.map Prod.snd).countP (fun c => c.Of s) ≤ 1 := by
  have hkeys : (cs.map Prod.fst).count s.key ≤ 1 := List.nodup_iff_count_le_one.1 h.nodup s.key
  rw [List.count, List.countP_map] at hkeys
  rw [List.countP_map]
  refine le_trans (List.countP_mono_left fun e he hof => ?_) hkeys
  have hkey := h.key_of he (of_decide_eq_true hof)
  simp [hkey]

/-- Each series that has been used has a counter of its own just if no other one has the same text. -/
theorem listed_iff : (∀ e ∈ entries, (cs.map Prod.snd).countP (fun c => c.Of e.1) = 1) ↔
    ∀ e ∈ entries, ∀ e' ∈ entries, e.1.key = e'.1.key → e.1.Same e'.1 := by
  constructor
  · intro hlisted e he e' he' hkey
    have hcounter : ∀ e ∈ entries, ∃ c, (e.1.key, c) ∈ cs ∧ c.Of e.1 := by
      intro e he
      have hpos : 0 < (cs.map Prod.snd).countP (fun c => c.Of e.1) := by
        rw [hlisted e he]
        exact Nat.one_pos
      obtain ⟨c, hc, hof⟩ := List.countP_pos_iff.1 hpos
      obtain ⟨⟨k, c⟩, hmem, rfl⟩ := List.mem_map.1 hc
      have hof := of_decide_eq_true hof
      exact ⟨c, h.key_of hmem hof ▸ hmem, hof⟩
    obtain ⟨c, hc, hof⟩ := hcounter e he
    obtain ⟨c', hc', hof'⟩ := hcounter e' he'
    rw [← hkey] at hc'
    have hsame : c = c' :=
      Option.some.inj (((lookup_eq_some_iff h.nodup).2 hc).symm.trans ((lookup_eq_some_iff h.nodup).2 hc'))
    subst hsame
    exact ⟨hof.1.symm.trans hof'.1, hof.2.symm.trans hof'.2⟩
  · intro hsame e he
    have hlookup := h.lookup e.1.key
    obtain ⟨c, hc⟩ : ∃ c, cs.lookup e.1.key = some c := by
      have hmem : e ∈ entries.filter fun e' => e'.1.key = e.1.key := List.mem_filter.2 ⟨he, by simp⟩
      rw [hlookup]
      cases hentries : entries.filter fun e' => e'.1.key = e.1.key with
      | nil => simp [hentries] at hmem
      | cons e rest => exact ⟨_, rfl⟩
    have hmem := (lookup_eq_some_iff h.nodup).1 hc
    obtain ⟨s, value, rest, hentries, hkey, hname, hlabels⟩ := h.mem hmem
    have hs : (s, value) ∈ entries := (List.mem_filter.1 (hentries ▸ List.mem_cons_self)).1
    have hof : c.Of e.1 := by
      obtain ⟨hn, hl⟩ := hsame _ hs e he hkey
      exact ⟨hname.trans hn, hlabels ▸ hl⟩
    have hpos : 0 < (cs.map Prod.snd).countP (fun c => c.Of e.1) :=
      List.countP_pos_iff.2 ⟨c, List.mem_map.2 ⟨_, hmem, rfl⟩, decide_eq_true hof⟩
    exact le_antisymm (h.countP_le_one e.1) hpos

end Facts

end Holds

end Counters

/-! ## What counters hold -/

/-- What has been added under some of the series, and under the others. -/
theorem total_add [AddCommMonoid α] {p r : Series → Prop} [DecidablePred p] [DecidablePred r] (hr : ∀ s, r s → p s)
    (entries : List (Series × α)) : total p entries = total r entries + total (fun s => p s ∧ ¬r s) entries := by
  induction entries with
  | nil => simp [total]
  | cons e entries ih =>
    unfold total at ih ⊢
    by_cases hre : r e.1
    · simp [hre, hr e.1 hre, ih, add_assoc]
    · by_cases hpe : p e.1
      · simp [hre, hpe, ih, add_left_comm]
      · simp [hre, hpe, ih]

theorem total_eq_zero [AddMonoid α] {p : Series → Prop} [DecidablePred p] {entries : List (Series × α)}
    (h : ∀ e ∈ entries, ¬p e.1) : total p entries = 0 := by
  rw [total, List.filter_eq_nil_iff.2 (by simpa using h)]
  rfl

variable [AddCancelCommMonoid α]

/-- A counter holds what has been added since the last reset under all series with its text. It holds what has been added
    under its own name and labels just if the rest comes to nothing, and each series in use is listed once just if no two of
    them have one text: so it is where names hold no opening brace and labels no quote. -/
theorem counters_own_iff (steps : List (Step α)) :
    (∀ q : Series,
      (Counters.run steps).value q.name q.labels = total (fun s => s.key = q.key) (Step.entered steps) ∧
      ((Counters.run steps).value q.name q.labels = total q.Same (Step.entered steps) ↔
        total (fun s => s.key = q.key ∧ ¬q.Same s) (Step.entered steps) = 0)) ∧
    (∀ c ∈ (Counters.run steps).map Prod.snd,
      c.value = (Counters.run steps).value c.name c.labels ∧ ∃ e ∈ Step.entered steps, c.Of e.1) ∧
    ((∀ e ∈ Step.entered steps, ((Counters.run steps).map Prod.snd).countP (fun c => c.Of e.1) = 1) ↔
      ∀ e ∈ Step.entered steps, ∀ e' ∈ Step.entered steps, e.1.key = e'.1.key → e.1.Same e'.1) ∧
    ((∀ e ∈ Step.entered steps, e.1.Plain) →
      (∀ q : Series, q.Plain → (Counters.run steps).value q.name q.labels = total q.Same (Step.entered steps)) ∧
      ∀ e ∈ Step.entered steps, ((Counters.run steps).map Prod.snd).countP (fun c => c.Of e.1) = 1) := by
  have h := Counters.Holds.run steps
  have hown (q : Series) : (Counters.run steps).value q.name q.labels = total q.Same (Step.entered steps) ↔
      total (fun s => s.key = q.key ∧ ¬q.Same s) (Step.entered steps) = 0 := by
    rw [h.value_eq, total_add (fun s (hs : q.Same s) => hs.key_eq.symm) (Step.entered steps), add_eq_left]
  refine ⟨fun q => ⟨h.value_eq q, hown q⟩, fun c hc => ?_, h.listed_iff, fun hplain => ⟨fun q hq => ?_, ?_⟩⟩
  · obtain ⟨⟨k, c⟩, hmem, rfl⟩ := List.mem_map.1 hc
    obtain ⟨s, value, rest, hentries, -, hname, hlabels⟩ := h.mem hmem
    have hs := (List.mem_filter.1 (hentries ▸ List.mem_cons_self : (s, value) ∈ _)).1
    exact ⟨h.value_listed hmem, _, hs, hname, by rw [hlabels]⟩
  · refine (hown q).2 (total_eq_zero fun e he => ?_)
    rintro ⟨hkey, hnot⟩
    exact hnot ((Series.key_eq_iff (hplain e he) hq).1 hkey).symm
  · exact h.listed_iff.2 fun e he e' he' => (Series.key_eq_iff (hplain e he) (hplain e' he')).1

/-- Requests for one path, for another one, and for the first again with the labels the other way round. -/
def visits : List (Step Int) :=
  [.add ⟨"hits", [("path", "/a"), ("status", "200")], by decide⟩ 2, .reset,
    .add ⟨"hits", [("path", "/a"), ("status", "200")], by decide⟩ 1,
    .add ⟨"hits", [("path", "/b"), ("status", "200")], by decide⟩ 5,
    .add ⟨"hits", [("status", "200"), ("path", "/a")], by decide⟩ 3]

theorem counters_own_iff_visits :
    (∀ e ∈ Step.entered visits, e.1.Plain) ∧
      (Series.mk "hits" [("path", "/a"), ("status", "200")] (by decide)).Plain ∧
      (Counters.run visits).value "hits" [("path", "/a"), ("status", "200")] = 4 := by
  have hplain : ∀ e ∈ Step.entered visits, e.1.Plain := by decide
  have hq : (Series.mk "hits" [("path", "/a"), ("status", "200")] (by decide)).Plain := by decide
  exact ⟨hplain, hq, (((counters_own_iff visits).2.2.2 hplain).1 _ hq).trans (by decide)⟩

/-- One label whose value holds quotes has the text of two labels, which have never been used. -/
theorem quoted_label_shared :
    (Counters.run [.add ⟨"a", [("k", "v\",l=\"w")], by decide⟩ (1 : Int)]).value "a" [("k", "v"), ("l", "w")] = 1 ∧
      total (Series.mk "a" [("k", "v"), ("l", "w")] (by decide)).Same
        (Step.entered [.add ⟨"a", [("k", "v\",l=\"w")], by decide⟩ (1 : Int)]) = 0 := by
  cbv

end Meters

end Galley
