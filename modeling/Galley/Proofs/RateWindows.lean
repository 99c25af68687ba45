import Galley.Service.Limiter
import Mathlib.Algebra.Order.Group.Defs
import Mathlib.Algebra.Order.Group.Int
import Mathlib.Data.List.Induction
/-!
# What the rate limit lets through

Requests are answered one after the other (`rulings`). What the limiter holds of a client is the end of the row of its
requests that were let through, and whatever it has forgotten left the windows that are still to come (`Keeps`). So a
request is let through just if the window that ends with it has room (`Fair`). Only one row of answers is fair
(`Fair.unique`), so fairness says all: where requests are left out and no client that stays loses one that was let through,
the other answers stay as they are (`Fair.of_sublist`).
-/

namespace Galley.Limiter

variable {τ : Type}

/-! ## Requests and their answers -/

/-- A request of a client at a time. -/
structure Call (τ : Type) where
  client : Text
  time : τ
  deriving DecidableEq

/-- A request with its answer. -/
structure Ruling (τ : Type) extends Call τ where
  allowed : Bool
  deriving DecidableEq

/-- Answers requests one after the other. -/
def rulings [Sub τ] [LE τ] [DecidableLE τ] (limit : Int) (window : τ) : Limiter τ → List (Call τ) → List (Ruling τ)
  | _, [] => []
  | l, c :: cs =>
    let answer := l.allow c.time c.client limit window
    { c with allowed := answer.1 } :: rulings limit window answer.2 cs

/-- The times of a client's requests that were let through. -/
def admitted (client : Text) (rs : List (Ruling τ)) : List τ :=
  (rs.filter fun r => r.allowed && r.client = client).map (·.time)

theorem admitted_append (client : Text) (rs rs' : List (Ruling τ)) :
    admitted client (rs ++ rs') = admitted client rs ++ admitted client rs' := by
  simp [admitted]

theorem admitted_sublist (client : Text) {rs rs' : List (Ruling τ)} (h : rs.Sublist rs') :
    (admitted client rs).Sublist (admitted client rs') := (h.filter _).map _

theorem mem_admitted {client : Text} {rs : List (Ruling τ)} {t : τ} (h : t ∈ admitted client rs) : ∃ r ∈ rs, r.time = t := by
  obtain ⟨r, hr, rfl⟩ := List.mem_map.1 h
  exact ⟨r, (List.mem_filter.1 hr).1, rfl⟩

/-! ## What is stored of a client -/

theorem hitsOf_setHits_self (l : Limiter τ) (client : Text) (times : List τ) :
    (l.setHits client times).hitsOf client = times := by
  simp [setHits, hitsOf]

theorem hitsOf_setHits_of_ne {client other : Text} (h : other ≠ client) (l : Limiter τ) (times : List τ) :
    (l.setHits client times).hitsOf other = l.hitsOf other := by
  have hlookup (hits : List (Text × List τ)) :
      (hits.filter (·.1 ≠ client)).lookup other = hits.lookup other := by
    induction hits with
    | nil => rfl
    | cons a hits ih =>
      obtain ⟨k, times⟩ := a
      by_cases hk : k = client
      · subst hk
        have hne : (other == k) = false := by simpa using h
        simpa [List.lookup_cons, hne] using ih
      · rw [List.filter_cons_of_pos (by simpa using hk), List.lookup_cons, List.lookup_cons, ih]
  have hne : (other == client) = false := by simpa using h
  simp only [setHits, hitsOf, List.lookup_cons, hne, hlookup]

section Answers

variable [Sub τ] [LE τ] [DecidableLE τ]

/-- The stored requests of a client that a request at a time still meets in its window. -/
def recent (l : Limiter τ) (client : Text) (now window : τ) : List τ :=
  (l.hitsOf client).dropWhile fun t => t <= now - window

variable (l : Limiter τ) (now : τ) (client : Text) (limit : Int) (window : τ)

theorem allow_fst_iff : (l.allow now client limit window).1 = true ↔ ((l.recent client now window).length : Int) < limit := by
  unfold allow recent
  dsimp only
  split <;> rename_i h
  · simp [h]
  · simp [not_le.1 h]

theorem hitsOf_allow_self : (l.allow now client limit window).2.hitsOf client =
    l.recent client now window ++ if (l.allow now client limit window).1 then [now] else [] := by
  unfold allow recent
  dsimp only
  split <;> simp [hitsOf_setHits_self]

theorem hitsOf_allow_of_ne {other : Text} (h : other ≠ client) :
    (l.allow now client limit window).2.hitsOf other = l.hitsOf other := by
  unfold allow
  dsimp only
  split <;> exact hitsOf_setHits_of_ne h l _

theorem map_rulings (calls : List (Call τ)) : (rulings limit window l calls).map Ruling.toCall = calls := by
  induction calls generalizing l with
  | nil => rfl
  | cons c calls ih => exact congrArg (c :: ·) (ih _)

end Answers

/-! ## Room in a window -/

theorem dropWhile_eq_filter [LinearOrder τ] {times : List τ} (h : times.Pairwise (· ≤ ·)) (bound : τ) :
    times.dropWhile (fun t => t <= bound) = times.filter (fun t => bound < t) := by
  induction times with
  | nil => rfl
  | cons t times ih =>
    obtain ⟨hfirst, hrest⟩ := List.pairwise_cons.1 h
    by_cases ht : t ≤ bound
    · rw [List.dropWhile_cons_of_pos (by simpa using ht), List.filter_cons_of_neg (by simpa using ht), ih hrest]
    · have hall : ∀ u ∈ t :: times, bound < u := by
        intro u hu
        rcases List.mem_cons.1 hu with rfl | hu
        · exact not_le.1 ht
        · exact (not_le.1 ht).trans_le (hfirst u hu)
      rw [List.dropWhile_cons_of_neg (by simpa using ht), List.filter_eq_self.2 fun u hu => by simpa using hall u hu]

variable [AddCommGroup τ] [LinearOrder τ]

/-- How many requests of a client were let through in the window that ends at a time. -/
def load (window : τ) (client : Text) (now : τ) (rs : List (Ruling τ)) : Nat :=
  (admitted client rs).countP fun t => now - window < t ∧ t ≤ now

/-- Each request is let through just if the window that ends with it has room. -/
def Fair (limit : Int) (window : τ) (rs : List (Ruling τ)) : Prop :=
  ∀ before r, before ++ [r] <+: rs → (r.allowed = true ↔ (load window r.client r.time before : Int) < limit)

/-- The requests of the past came in order and not after `now`; of each client those let through are held, but for some that
    have left the window which ends at `now`. -/
structure Keeps (window : τ) (past : List (Ruling τ)) (now : τ) (l : Limiter τ) : Prop where
  ordered : past.Pairwise fun r s => r.time ≤ s.time
  before : ∀ r ∈ past, r.time ≤ now
  hits : ∀ client, ∃ left, admitted client past = left ++ l.hitsOf client ∧ ∀ t ∈ left, t ≤ now - window

namespace Keeps

variable {window now : τ} {past : List (Ruling τ)} {l : Limiter τ}

theorem start (now : τ) : Keeps window [] now {} where
  ordered := List.Pairwise.nil
  before := by simp
  hits client := ⟨[], rfl, by simp⟩

theorem admitted_ordered (h : Keeps window past now l) (client : Text) : (admitted client past).Pairwise (· ≤ ·) := by
  rw [admitted, List.pairwise_map]
  exact h.ordered.sublist List.filter_sublist

/-- What is held after pruning is what was let through in the window. -/
theorem length_recent (h : Keeps window past now l) (client : Text) :
    (l.recent client now window).length = load window client now past := by
  obtain ⟨left, hpast, hleft⟩ := h.hits client
  have hordered := h.admitted_ordered client
  rw [hpast] at hordered
  have hlate : ∀ t ∈ l.hitsOf client, t ≤ now := by
    intro t ht
    have hmem : t ∈ admitted client past := hpast ▸ List.mem_append_right _ ht
    obtain ⟨r, hr, rfl⟩ := mem_admitted hmem
    exact h.before r hr
  have hnone : left.countP (fun t => now - window < t ∧ t ≤ now) = 0 := by
    rw [List.countP_eq_zero]
    intro t ht
    simp [hleft t ht]
  rw [recent, dropWhile_eq_filter (List.pairwise_append.1 hordered).2.1, load, hpast, List.countP_append, hnone, Nat.zero_add,
    List.countP_eq_length_filter]
  refine congrArg List.length (List.filter_congr fun t ht => ?_)
  simp [hlate t ht]

/-- A request is answered by the room in its window. -/
theorem allow_iff (h : Keeps window past now l) (client : Text) (limit : Int) :
    (l.allow now client limit window).1 = true ↔ (load window client now past : Int) < limit := by
  rw [allow_fst_iff, h.length_recent]

/-- What has left a window has left the later ones. -/
theorem later [IsOrderedAddMonoid τ] (h : Keeps window past now l) {now' : τ} (hnow : now ≤ now') : Keeps window past now' l where
  ordered := h.ordered
  before r hr := (h.before r hr).trans hnow
  hits client := by
    obtain ⟨left, hpast, hleft⟩ := h.hits client
    exact ⟨left, hpast, fun t ht => (hleft t ht).trans (sub_le_sub_right hnow window)⟩

/-- One more request. -/
theorem allow (h : Keeps window past now l) (client : Text) (limit : Int) :
    Keeps window (past ++ [⟨⟨client, now⟩, (l.allow now client limit window).1⟩]) now (l.allow now client limit window).2 where
  ordered := by
    rw [List.pairwise_append]
    exact ⟨h.ordered, List.pairwise_singleton _ _, by simpa using h.before⟩
  before := by
    intro r hr
    rcases List.mem_append.1 hr with hr | hr
    · exact h.before r hr
    · rw [List.mem_singleton.1 hr]
  hits other := by
    obtain ⟨left, hpast, hleft⟩ := h.hits other
    by_cases hother : other = client
    · subst hother
      -- what the pruning takes off the held requests joins those forgotten before
      refine ⟨left ++ (l.hitsOf other).takeWhile (fun t => t <= now - window), ?_, ?_⟩
      · rw [admitted_append, hpast, hitsOf_allow_self, List.append_assoc, List.append_assoc, ← List.append_assoc (List.takeWhile _ _),
          recent, List.takeWhile_append_dropWhile]
        cases (l.allow now other limit window).1 <;> simp [admitted]
      · intro t ht
        rcases List.mem_append.1 ht with ht | ht
        · exact hleft t ht
        · simpa using List.all_eq_true.1 List.all_takeWhile t ht
    · refine ⟨left, ?_, hleft⟩
      rw [admitted_append, hpast, hitsOf_allow_of_ne l now client limit window hother]
      simp [admitted, Ne.symm hother]

/-- What holds of one request holds of a row of them. -/
theorem rulings [IsOrderedAddMonoid τ] (limit : Int) {calls : List (Call τ)} (h : Keeps window past now l) (hlate : ∀ c ∈ calls, now ≤ c.time)
    (hcalls : calls.Pairwise fun c d => c.time ≤ d.time) {before : List (Ruling τ)} {r : Ruling τ}
    (hr : before ++ [r] <+: Limiter.rulings limit window l calls) :
    r.allowed = true ↔ (load window r.client r.time (past ++ before) : Int) < limit := by
  induction calls generalizing past now l before with
  | nil => simp [Limiter.rulings] at hr
  | cons c calls ih =>
    obtain ⟨hfirst, hrest⟩ := List.pairwise_cons.1 hcalls
    have hnow := h.later (hlate c List.mem_cons_self)
    rw [Limiter.rulings] at hr
    cases before with
    | nil =>
      obtain ⟨rfl, -⟩ := List.cons_prefix_cons.1 hr
      rw [List.append_nil]
      exact hnow.allow_iff c.client limit
    | cons b before =>
      obtain ⟨rfl, htail⟩ := List.cons_prefix_cons.1 hr
      have := ih (hnow.allow c.client limit) hfirst hrest htail
      rwa [List.append_assoc, List.singleton_append] at this

end Keeps

/-! ## Fair answers -/

namespace Fair

variable {limit : Int} {window : τ} {rs rs' : List (Ruling τ)}

theorem of_prefix (h : Fair limit window rs) (hrs : rs' <+: rs) : Fair limit window rs' :=
  fun before r hr => h before r (hr.trans hrs)

/-- The answers follow from the requests. -/
theorem unique (h : Fair limit window rs) (h' : Fair limit window rs') (hcalls : rs.map Ruling.toCall = rs'.map Ruling.toCall) :
    rs = rs' := by
  induction rs using List.reverseRecOn generalizing rs' with
  | nil => exact (List.map_eq_nil_iff.1 hcalls.symm).symm
  | append_singleton rs r ih =>
    rw [List.map_append] at hcalls
    obtain ⟨before, last, rfl, hbefore, hlast⟩ := List.map_eq_append_iff.1 hcalls.symm
    obtain ⟨r', last, rfl, hr', hnil⟩ := List.map_eq_cons_iff.1 hlast
    obtain rfl := List.map_eq_nil_iff.1 hnil
    obtain rfl := ih (h.of_prefix (List.prefix_append _ _)) (h'.of_prefix (List.prefix_append _ _)) hbefore.symm
    have hallowed : r.allowed = r'.allowed := by
      have hr := h rs r (List.prefix_refl _)
      have hr'' := h' rs r' (List.prefix_refl _)
      rw [hr'] at hr''
      exact Bool.eq_iff_iff.2 (hr.trans hr''.symm)
    obtain ⟨c, a⟩ := r
    obtain ⟨c', a'⟩ := r'
    obtain rfl : c' = c := hr'
    obtain rfl : a = a' := hallowed
    rfl

/-- Answers stay fair where requests are left out, as long as no client that stays loses one that was let through. -/
theorem of_sublist (h : Fair limit window rs) (hsub : rs'.Sublist rs)
    (hkept : ∀ r ∈ rs', admitted r.client rs' = admitted r.client rs) : Fair limit window rs' := by
  rintro before r ⟨after, rfl⟩
  rw [List.append_assoc, List.singleton_append] at hsub
  obtain ⟨front, back, rfl, hfront, hback⟩ := List.append_sublist_iff.1 hsub
  obtain ⟨mid, rest, rfl, hmem, hrest⟩ := List.cons_sublist_iff.1 hback
  obtain ⟨x, y, rfl⟩ := List.append_of_mem hmem
  have hrule := h (front ++ x) r ⟨y ++ rest, by simp⟩
  have hbefore : (admitted r.client before).Sublist (admitted r.client (front ++ x)) :=
    admitted_sublist r.client (hfront.trans (List.sublist_append_left front x))
  have hafter : (admitted r.client after).Sublist (admitted r.client (y ++ rest)) :=
    admitted_sublist r.client (hrest.trans (List.sublist_append_right y rest))
  -- the client has as many requests as before, so as many in front of this one and behind it
  have hlength : (admitted r.client before).length + ((admitted r.client [r]).length + (admitted r.client after).length) =
      (admitted r.client (front ++ x)).length + ((admitted r.client [r]).length + (admitted r.client (y ++ rest)).length) := by
    simp only [← List.length_append, ← admitted_append]
    simpa using congrArg List.length (hkept r (by simp))
  have hsame : admitted r.client before = admitted r.client (front ++ x) := by
    refine hbefore.eq_of_length ?_
    have := hbefore.length_le
    have := hafter.length_le
    omega
  rw [hrule, load, load, hsame]

/-- Any times that have less than a window between them hold no more requests than the limit. -/
theorem countP_le (h : Fair limit window rs) (hlimit : 0 ≤ limit) (hordered : rs.Pairwise fun r s => r.time ≤ s.time) (client : Text)
    {inside : τ → Bool} (hinside : ∀ s t, inside s = true → inside t = true → t - window < s) :
    ((admitted client rs).countP inside : Int) ≤ limit := by
  induction rs using List.reverseRecOn with
  | nil => simpa [admitted] using hlimit
  | append_singleton rs r ih =>
    obtain ⟨hordered, -, hlast⟩ := List.pairwise_append.1 hordered
    have hbefore := ih (h.of_prefix (List.prefix_append _ _)) hordered
    rw [admitted_append, List.countP_append]
    by_cases hr : r.allowed = true ∧ r.client = client ∧ inside r.time = true
    · obtain ⟨hallowed, rfl, htime⟩ := hr
      -- those inside are in the window of the last one, which had room
      have hroom := (h rs r (List.prefix_refl _)).1 hallowed
      have hle : (admitted r.client rs).countP inside ≤ load window r.client r.time rs := by
        refine List.countP_mono_left fun t ht hin => ?_
        obtain ⟨s, hs, rfl⟩ := mem_admitted ht
        simpa using ⟨hinside s.time r.time hin htime, hlast s hs r List.mem_cons_self⟩
      have hone : (admitted r.client [r]).countP inside = 1 := by simp [admitted, hallowed, htime]
      omega
    · have hnone : (admitted client [r]).countP inside = 0 := by
        rw [List.countP_eq_zero]
        intro t ht
        obtain ⟨s, hs, rfl⟩ := List.mem_map.1 ht
        obtain ⟨hs, hadmitted⟩ := List.mem_filter.1 hs
        obtain rfl := List.mem_singleton.1 hs
        intro hin
        simp only [Bool.and_eq_true, decide_eq_true_eq] at hadmitted
        exact hr ⟨hadmitted.1, hadmitted.2, hin⟩
      omega

end Fair

/-! ## The limiter is fair -/

section Limit

variable [IsOrderedAddMonoid τ] {limit : Int} {calls : List (Call τ)}

theorem fair_rulings (window : τ) (hcalls : calls.Pairwise fun c d => c.time ≤ d.time) :
    Fair limit window (rulings limit window {} calls) := by
  intro before r hr
  cases calls with
  | nil => simp [rulings] at hr
  | cons c calls =>
    have hlate : ∀ d ∈ c :: calls, c.time ≤ d.time := by
      intro d hd
      rcases List.mem_cons.1 hd with rfl | hd
      · exact le_refl _
      · exact (List.pairwise_cons.1 hcalls).1 d hd
    have hstart : Keeps window [] c.time {} := Keeps.start c.time
    simpa using hstart.rulings limit hlate hcalls hr

/-- Requests that come in order are answered as if some of them were left out, as long as no client that stays loses one that
    was let through. -/
theorem rulings_sublist (window : τ) (hcalls : calls.Pairwise fun c d => c.time ≤ d.time) {kept : List (Ruling τ)}
    (hsub : kept.Sublist (rulings limit window {} calls))
    (hkept : ∀ r ∈ kept, admitted r.client kept = admitted r.client (rulings limit window {} calls)) :
    rulings limit window {} (kept.map Ruling.toCall) = kept := by
  have horder : (kept.map Ruling.toCall).Pairwise fun c d => c.time ≤ d.time := by
    refine hcalls.sublist ?_
    rw [← map_rulings {} limit window calls]
    exact hsub.map _
  exact (fair_rulings window horder).unique ((fair_rulings window hcalls).of_sublist hsub hkept) (map_rulings {} limit window _)

/-- For requests in order of their times: each is let through just if fewer than the limit of its client's were let through
    in the window that ends with it; no window of a client, open at either end, holds more than the limit; without some of
    the requests that were refused all others are answered alike; and so is each client without the other clients. -/
theorem rulings_exact (hlimit : 0 ≤ limit) (window : τ) (hcalls : calls.Pairwise fun c d => c.time ≤ d.time) :
    (∀ before r, before ++ [r] <+: rulings limit window {} calls →
      (r.allowed = true ↔
        ((admitted r.client before).countP fun t => r.time - window < t ∧ t ≤ r.time : Int) < limit)) ∧
    (∀ client now,
      ((admitted client (rulings limit window {} calls)).countP fun t => now - window < t ∧ t ≤ now : Int) ≤ limit ∧
      ((admitted client (rulings limit window {} calls)).countP fun t => now ≤ t ∧ t < now + window : Int) ≤ limit) ∧
    (∀ kept : List (Ruling τ), kept.Sublist (rulings limit window {} calls) →
      kept.filter (·.allowed) = (rulings limit window {} calls).filter (·.allowed) →
        rulings limit window {} (kept.map Ruling.toCall) = kept) ∧
    ∀ client, rulings limit window {} (calls.filter (·.client = client)) =
      (rulings limit window {} calls).filter (·.client = client) := by
  have hfair : Fair limit window (rulings limit window {} calls) := fair_rulings window hcalls
  have horder : (rulings limit window {} calls).Pairwise fun r s => r.time ≤ s.time := by
    rw [← map_rulings {} limit window calls, List.pairwise_map] at hcalls
    exact hcalls
  refine ⟨hfair, fun client now => ⟨?_, ?_⟩, fun kept hsub hkept => ?_, fun client => ?_⟩
  · refine hfair.countP_le hlimit horder client fun s t hs ht => ?_
    simp only [decide_eq_true_eq] at hs ht
    exact (sub_le_sub_right ht.2 window).trans_lt hs.1
  · refine hfair.countP_le hlimit horder client fun s t hs ht => ?_
    simp only [decide_eq_true_eq] at hs ht
    exact (sub_lt_iff_lt_add.2 ht.2).trans_le hs.1
  · refine rulings_sublist window hcalls hsub fun r _ => ?_
    have hadmitted (rs : List (Ruling τ)) : admitted r.client rs =
        ((rs.filter (·.allowed)).filter fun s => s.client = r.client).map (·.time) := by
      simp only [admitted, List.filter_filter, Bool.and_comm]
    rw [hadmitted, hadmitted, hkept]
  · have hmap : ((rulings limit window {} calls).filter (·.client = client)).map Ruling.toCall =
        calls.filter (·.client = client) := by
      conv_rhs => rw [← map_rulings {} limit window calls, List.filter_map]
      rfl
    rw [← hmap]
    refine rulings_sublist window hcalls List.filter_sublist fun r hr => ?_
    obtain ⟨-, hclient⟩ := List.mem_filter.1 hr
    obtain rfl := of_decide_eq_true hclient
    rw [admitted, admitted, List.filter_filter]
    refine congrArg _ (List.filter_congr fun s _ => ?_)
    simp only [Bool.and_assoc, Bool.and_self]

/-- Two clients; of the first, one request comes just when the window of its first request is over. -/
def burst : List (Call Int) := [⟨['a'], 0⟩, ⟨['a'], 4⟩, ⟨['b'], 4⟩, ⟨['a'], 9⟩, ⟨['a'], 10⟩, ⟨['a'], 10⟩]

theorem rulings_exact_burst :
    (0 : Int) ≤ 2 ∧ burst.Pairwise (fun c d => c.time ≤ d.time) ∧
      (rulings 2 10 {} burst).map (·.allowed) = [true, true, true, false, true, false] ∧
      ∀ client, rulings 2 10 {} (burst.filter (·.client = client)) = (rulings 2 10 {} burst).filter (·.client = client) :=
  have hlimit : (0 : Int) ≤ 2 := by decide
  have horder : burst.Pairwise (fun c d => c.time ≤ d.time) := by decide
  ⟨hlimit, horder, by decide, (rulings_exact hlimit 10 horder).2.2.2⟩

end Limit

end Galley.Limiter
