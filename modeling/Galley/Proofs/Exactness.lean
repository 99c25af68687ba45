import Galley.Proofs.Carrying
import Galley.Proofs.Supply
/-!
# When the table holds just the tokens of the markup

A document without the letter `W` holds no token of its own, so each token in it was handed out for it. Tokens stay
whole and pairwise distinct through every trade. But a construct may take a token along that its fragment does not
show, and a fragment may show one that stands elsewhere: the first leaves an entry without a token, the second a token
without an entry. The books of a run (`Ledger`) tell which tokens went in either way, and the table holds just the
tokens of the markup if and only if these are the same (`run_exact_iff`).
-/

namespace Galley

open Block (Carries isTokenChar)
open Block.Token (word ofNumber)

/-- The tokens of the text are pairwise distinct, and just they have an entry in the table. -/
structure Exact (s : Text) (table : Block.Table) : Prop where
  distinct : (Block.Token.all s).Nodup
  entered : ∀ token ∈ Block.Token.all s, token ∈ table.tokens
  live : ∀ token ∈ table.tokens, token ∈ Block.Token.all s

/-- The books of trades that begin with `start`: the tokens handed out, those that have left the text, and those that
    have left the table. -/
inductive Ledger (start : Text × Block.Table) : (issued gone taken : List Text) → Text × Block.Table → Prop
  | start : Ledger start [] [] [] start
  | trade {issued gone taken : List Text} {p q : Text × Block.Table} (h : Ledger start issued gone taken p)
      (hpq : Trade p q) :
      Ledger start (issued ++ q.2.tokens.filter (· ∉ p.2.tokens))
        (gone ++ (Block.Token.all p.1).filter (· ∉ Block.Token.all q.1))
        (taken ++ p.2.tokens.filter (· ∉ q.2.tokens)) q

theorem Trades.ledger {p q : Text × Block.Table} (h : Trades p q) : ∃ issued gone taken, Ledger p issued gone taken q := by
  induction h with
  | refl => exact ⟨[], [], [], .start⟩
  | tail _ htrade ih =>
    obtain ⟨issued, gone, taken, hledger⟩ := ih
    exact ⟨_, _, _, hledger.trade htrade⟩

/-! ## What is cut out of a text that carries tokens -/

namespace Block

namespace Carries

variable {ts : List Text} {a b x : Text} {c : Char}

/-- Around a piece without a token at its edges some of the tokens are left. -/
theorem around (h : Carries ts (a ++ x ++ b)) (hx : Edged x) :
    ∃ us ws, (us ++ ws).Sublist ts ∧ Carries us a ∧ Carries ws b := by
  obtain ⟨c, u, rfl, hc⟩ := hx.first
  rw [List.append_assoc, List.cons_append] at h
  obtain ⟨us, vs, rfl, hus, hvs⟩ := h.split hc
  obtain ⟨v, d, hv, hd⟩ := hx.last
  cases v with
  | nil =>
    obtain ⟨-, rfl⟩ := List.cons.inj hv
    exact ⟨us, vs, List.Sublist.refl _, hus, hvs⟩
  | cons e v =>
    have hu : u ++ b = v ++ d :: b := by rw [(List.cons.inj hv).2]; simp
    rw [hu] at hvs
    obtain ⟨ws, hws, hb⟩ := hvs.behind hd
    exact ⟨us, ws, hws.sublist.append_left us, hus, hb⟩

end Carries

/-- Taking in a text takes the entries of its tokens out of the table. -/
theorem Table.tokens_absorb (t : Table) (s : Text) : (t.absorb s).2.tokens = t.tokens.filter (· ∉ Token.all s) := by
  have main (ps : List (Piece Text)) (t : Table) :
      (t.absorbPieces ps).2.tokens = t.tokens.filter (· ∉ ps.filterMap Piece.value?) := by
    induction ps generalizing t with
    | nil => simp [Table.absorbPieces]
    | cons p ps ih =>
      cases p with
      | char c => exact ih t
      | hit token source =>
        have hmem (x : Text) (l : List Text) : decide (x ∉ token :: l) = (decide (x ∉ l) && decide (x ≠ token)) := by
          rw [← Bool.decide_and, decide_eq_decide, List.mem_cons, not_or]
          exact and_comm
        have hhits : (Piece.hit token source :: ps).filterMap Piece.value? = token :: ps.filterMap Piece.value? := rfl
        rw [Table.absorbPieces, hhits]
        cases hget : t.get? token with
        | some fragment =>
          have herase : (t.erase token).tokens = t.tokens.filter (· ≠ token) := by
            rw [Table.erase, Table.tokens, Table.tokens, List.filter_map]
            rfl
          refine (ih (t.erase token)).trans ?_
          rw [herase, List.filter_filter]
          exact List.filter_congr fun x _ => (hmem x _).symm
        | none =>
          -- a token without an entry takes none out
          refine (ih t).trans (List.filter_congr fun x hx => ?_)
          have hne : x ≠ token := by
            rintro rfl
            obtain ⟨fragment, hfragment⟩ := Table.contains_iff.2 hx
            rw [hget] at hfragment
            cases hfragment
          rw [hmem]
          simp [hne]
  exact main _ t

end Block

/-! ## The tokens of one trade -/

/-- From `p` to `q` some tokens stay in the text and some in the table, and at most one new one comes into both. -/
structure Change (ts ts' added : List Text) (p q : Text × Block.Table) : Prop where
  carries : Carries ts' q.1
  text : ∃ kept : List Text, kept.Sublist ts ∧ ts'.Perm (kept ++ added)
  table : ∃ kept : List Text, kept.Sublist p.2.tokens ∧ q.2.tokens = kept ++ added
  added : added = [] ∧ q.2.issued = p.2.issued ∨ ∃ kind, added = [ofNumber kind q.2.issued] ∧ q.2.issued = p.2.issued + 1

theorem carries_placed (ownLine : Bool) (kind : Block.Kind) {n : Nat} (hn : n < 10 ^ 6) :
    Carries [ofNumber kind n] (placed ownLine (ofNumber kind n)) := by
  cases ownLine with
  | false => exact .single kind hn
  | true => exact (Carries.single kind hn).between (by decide) (by decide)

theorem Trade.change {ts : List Text} {p q : Text × Block.Table} (h : Trade p q) (hts : Carries ts p.1)
    (hlimit : q.2.issued < 10 ^ 6) : ∃ ts' added, Change ts ts' added p q := by
  cases h with
  | @put a x b T kind fragment ownLine hx =>
    obtain ⟨us, ws, hsub, hus, hws⟩ := hts.around hx.toEdged
    have hissued := T.issued_register kind fragment
    have htoken := carries_placed ownLine kind (hissued ▸ hlimit)
    refine ⟨us ++ [ofNumber kind (T.issued + 1)] ++ ws, [ofNumber kind (T.issued + 1)],
      (hus.append htoken).append hws, ⟨us ++ ws, hsub, ?_⟩, ?_, .inr ⟨kind, by rw [hissued], hissued⟩⟩
    · rw [List.append_assoc, List.append_assoc]
      exact List.perm_append_comm.append_left us
    · refine ⟨T.tokens.filter (· ∉ Block.Token.all fragment), List.filter_sublist, ?_⟩
      rw [Block.Table.register_eq]
      simp only [Block.Table.tokens, List.map_append, List.map_cons, List.map_nil]
      exact congrArg (· ++ _) (Block.Table.tokens_absorb { T with issued := T.issued + 1 } fragment)
  | @strike a x y b T hx hy =>
    obtain ⟨us, ws, hsub, hus, hws⟩ := hts.around hx
    have htext := (hus.append (.of_not_mem hy.2)).append hws
    rw [List.append_nil] at htext
    exact ⟨us ++ ws, [], htext, ⟨us ++ ws, hsub, by simp⟩, ⟨T.tokens, List.Sublist.refl _, by simp⟩, .inl ⟨rfl, rfl⟩⟩
  | @fold s T markup =>
    refine ⟨ts, [], hts, ⟨ts, List.Sublist.refl _, by simp⟩, ?_, .inl ⟨rfl, (T.absorb_subset markup).2⟩⟩
    refine ⟨T.tokens.filter (· ∉ Block.Token.all markup), List.filter_sublist, ?_⟩
    rw [List.append_nil]
    exact T.tokens_absorb markup

/-! ## The books are balanced -/

/-- What stays, what is new and what is lost. -/
theorem perm_of_change {old new kept added : List Text} (hold : old.Nodup) (hkept : kept.Sublist old)
    (hnew : new.Perm (kept ++ added)) (hadded : ∀ x ∈ added, x ∉ old) :
    (new ++ old.filter (· ∉ new)).Perm (old ++ added) := by
  have hstays : kept.Perm (old.filter (· ∈ new)) := by
    refine (List.perm_ext_iff_of_nodup (hkept.nodup hold) (hold.filter _)).2 fun x => ?_
    rw [List.mem_filter, decide_eq_true_eq, hnew.mem_iff, List.mem_append]
    exact ⟨fun hx => ⟨hkept.subset hx, .inl hx⟩, fun hx => hx.2.resolve_right fun h => hadded x h hx.1⟩
  have hsplit : (old.filter (· ∈ new) ++ old.filter (· ∉ new)).Perm old := by
    have := List.filter_append_perm (fun x => decide (x ∈ new)) old
    simpa only [decide_not] using this
  have hswap : (old.filter (· ∈ new) ++ added ++ old.filter (· ∉ new)).Perm
      (old.filter (· ∈ new) ++ old.filter (· ∉ new) ++ added) := by
    rw [List.append_assoc, List.append_assoc]
    exact List.perm_append_comm.append_left _
  calc List.Perm (new ++ old.filter (· ∉ new)) (kept ++ added ++ old.filter (· ∉ new)) := hnew.append_right _
    List.Perm _ (old.filter (· ∈ new) ++ added ++ old.filter (· ∉ new)) := (hstays.append_right _).append_right _
    List.Perm _ (old.filter (· ∈ new) ++ old.filter (· ∉ new) ++ added) := hswap
    List.Perm _ (old ++ added) := hsplit.append_right _

/-- What was handed out is still there or lost, and so it is after a change. -/
theorem perm_books {issued old lost new kept added : List Text} (hdistinct : issued.Nodup) (h : (old ++ lost).Perm issued)
    (hkept : kept.Sublist old) (hnew : new.Perm (kept ++ added)) (hfresh : ∀ x ∈ added, x ∉ issued) :
    (new ++ (lost ++ old.filter (· ∉ new))).Perm (issued ++ added) := by
  have hold : old.Nodup := (List.nodup_append.1 (h.nodup_iff.2 hdistinct)).1
  have hadded : ∀ x ∈ added, x ∉ old := fun x hx hm => hfresh x hx (h.subset (List.mem_append_left lost hm))
  have hchange := perm_of_change hold hkept hnew hadded
  have hlost : List.Perm (new ++ (lost ++ old.filter (· ∉ new))) (new ++ old.filter (· ∉ new) ++ lost) := by
    rw [List.append_assoc]
    exact List.perm_append_comm.append_left new
  have hswap : List.Perm (old ++ added ++ lost) (old ++ lost ++ added) := by
    rw [List.append_assoc, List.append_assoc]
    exact List.perm_append_comm.append_left old
  calc List.Perm (new ++ (lost ++ old.filter (· ∉ new))) (new ++ old.filter (· ∉ new) ++ lost) := hlost
    List.Perm _ (old ++ added ++ lost) := hchange.append_right lost
    List.Perm _ (old ++ lost ++ added) := hswap
    List.Perm _ (issued ++ added) := h.append_right added

/-- The books are balanced: a token that was handed out stands in the text or has left it, and it has an entry in the
    table or has left that. -/
structure Balanced (issued gone taken ts : List Text) (p : Text × Block.Table) : Prop where
  carries : Carries ts p.1
  distinct : issued.Nodup
  numbered : ∀ token ∈ issued, ∃ kind n, n ≤ p.2.issued ∧ token = ofNumber kind n
  text : (ts ++ gone).Perm issued
  table : (p.2.tokens ++ taken).Perm issued

namespace Change

variable {issued gone taken ts ts' added : List Text} {p q : Text × Block.Table}

theorem issued_le (hchange : Change ts ts' added p q) : p.2.issued ≤ q.2.issued := by
  rcases hchange.added with ⟨-, hissued⟩ | ⟨-, -, hissued⟩ <;> omega

/-- A new token has a higher number than all before it. -/
theorem fresh (hchange : Change ts ts' added p q) (h : Balanced issued gone taken ts p) (hlimit : q.2.issued < 10 ^ 6) :
    ∀ x ∈ added, x ∉ issued := by
  intro x hx hold
  rcases hchange.added with ⟨rfl, -⟩ | ⟨kind, rfl, hissued⟩
  · cases hx
  · obtain ⟨kind', n, hn, htoken⟩ := h.numbered x hold
    rw [List.mem_singleton.1 hx] at htoken
    have := (Block.Token.ofNumber_inj hlimit (by omega) htoken).2
    omega

/-- The table tells which tokens are new. -/
theorem new_eq (hchange : Change ts ts' added p q) (h : Balanced issued gone taken ts p) (hlimit : q.2.issued < 10 ^ 6) :
    q.2.tokens.filter (· ∉ p.2.tokens) = added := by
  obtain ⟨kept, hkept, htable⟩ := hchange.table
  have hold : kept.filter (· ∉ p.2.tokens) = [] :=
    List.filter_eq_nil_iff.2 fun x hx => by simpa using hkept.subset hx
  have hall : added.filter (· ∉ p.2.tokens) = added :=
    List.filter_eq_self.2 fun x hx => by
      simpa using fun hm => hchange.fresh h hlimit x hx (h.table.subset (List.mem_append_left taken hm))
  rw [htable, List.filter_append, hold, hall, List.nil_append]

end Change

/-- A trade keeps the books balanced. -/
theorem Balanced.trade {issued gone taken ts : List Text} {p q : Text × Block.Table} (h : Balanced issued gone taken ts p)
    (hpq : Trade p q) (hlimit : q.2.issued < 10 ^ 6) :
    ∃ ts', Balanced (issued ++ q.2.tokens.filter (· ∉ p.2.tokens))
      (gone ++ (Block.Token.all p.1).filter (· ∉ Block.Token.all q.1)) (taken ++ p.2.tokens.filter (· ∉ q.2.tokens)) ts' q := by
  obtain ⟨ts', added, hchange⟩ := hpq.change h.carries hlimit
  obtain ⟨keptText, hkeptText, htext⟩ := hchange.text
  obtain ⟨keptTable, hkeptTable, htable⟩ := hchange.table
  have hfresh := hchange.fresh h hlimit
  have hnew := hchange.new_eq h hlimit
  refine ⟨ts', hchange.carries, ?_, ?_, ?_, ?_⟩
  · rw [hnew]
    refine List.nodup_append.2 ⟨h.distinct, ?_, fun x hx y hy hxy => hfresh y hy (hxy ▸ hx)⟩
    rcases hchange.added with ⟨rfl, -⟩ | ⟨kind, rfl, -⟩
    · exact List.nodup_nil
    · simp
  · rw [hnew]
    intro x hx
    rcases List.mem_append.1 hx with hx | hx
    · obtain ⟨kind, n, hn, rfl⟩ := h.numbered x hx
      exact ⟨kind, n, hn.trans hchange.issued_le, rfl⟩
    · rcases hchange.added with ⟨rfl, -⟩ | ⟨kind, rfl, -⟩
      · cases hx
      · exact ⟨kind, _, Nat.le_refl _, List.mem_singleton.1 hx⟩
  · rw [hnew, h.carries.all_eq, hchange.carries.all_eq]
    exact perm_books h.distinct h.text hkeptText htext hfresh
  · rw [hnew]
    exact perm_books h.distinct h.table hkeptTable (htable ▸ List.Perm.refl _) hfresh

/-- From a text without tokens and an empty table on, the books are balanced. -/
theorem Ledger.balanced {s : Text} (hs : 'W' ∉ s) {issued gone taken : List Text} {p : Text × Block.Table}
    (h : Ledger (s, {}) issued gone taken p) (hlimit : p.2.issued < 10 ^ 6) : ∃ ts, Balanced issued gone taken ts p := by
  induction h with
  | start => exact ⟨[], .of_not_mem hs, List.nodup_nil, by simp, List.Perm.refl _, List.Perm.refl _⟩
  | trade _ hpq ih =>
    obtain ⟨ts, hbalanced⟩ := ih (Nat.lt_of_le_of_lt (Trades.issued_le (.single hpq)) hlimit)
    exact hbalanced.trade hpq hlimit

/-- With balanced books the table is exact if and only if what has left the text is what has left the table. -/
theorem Balanced.exact_iff {issued gone taken ts : List Text} {p : Text × Block.Table}
    (h : Balanced issued gone taken ts p) : Exact p.1 p.2 ↔ gone.Perm taken := by
  have hts : ts.Nodup := (List.nodup_append.1 (h.text.nodup_iff.2 h.distinct)).1
  have htokens : p.2.tokens.Nodup := (List.nodup_append.1 (h.table.nodup_iff.2 h.distinct)).1
  have hbooks : (ts ++ gone).Perm (p.2.tokens ++ taken) := h.text.trans h.table.symm
  have hall := h.carries.all_eq
  constructor
  · intro hexact
    have hsame : ts.Perm p.2.tokens := by
      refine (List.perm_ext_iff_of_nodup hts htokens).2 fun x => ?_
      rw [← hall]
      exact ⟨hexact.entered x, hexact.live x⟩
    exact (List.perm_append_left_iff _).1 ((hsame.symm.append_right gone).trans hbooks)
  · intro hlost
    have hsame : ts.Perm p.2.tokens :=
      (List.perm_append_right_iff taken).1 ((hlost.symm.append_left ts).trans hbooks)
    rw [← hall] at hsame hts
    exact ⟨hts, fun x hx => hsame.subset hx, fun x hx => hsame.symm.subset hx⟩

/-- A trade keeps an exact table exact if and only if it takes the same tokens out of the text and out of the table. -/
theorem Balanced.exact_trade_iff {issued gone taken ts : List Text} {p q : Text × Block.Table}
    (h : Balanced issued gone taken ts p) (hexact : Exact p.1 p.2) (hpq : Trade p q) (hlimit : q.2.issued < 10 ^ 6) :
    Exact q.1 q.2 ↔
      ((Block.Token.all p.1).filter (· ∉ Block.Token.all q.1)).Perm (p.2.tokens.filter (· ∉ q.2.tokens)) := by
  obtain ⟨ts', hbalanced⟩ := h.trade hpq hlimit
  have hsame := h.exact_iff.1 hexact
  rw [hbalanced.exact_iff]
  constructor
  · intro hlost
    exact (List.perm_append_left_iff taken).1 ((hsame.symm.append_right _).trans hlost)
  · intro hlost
    exact hsame.append hlost

namespace Reduction

/-- In a document without the letter `W` and with less than a million backslashes and dollars, the tokens of the
    reduced markup are pairwise distinct. Each token that was handed out stands in the markup or has left it with a
    construct, and it has an entry in the table or has been taken out of it. The table holds just the tokens of the
    markup if and only if the same tokens have left the one and the other. -/
theorem run_exact_iff {kit : Kit} {raw : Text} (hw : 'W' ∉ raw) (hsigns : signs raw < 10 ^ 6) {r : Reduction}
    (h : ((run kit raw).run {}).1 = .ok r) :
    (Block.Token.all r.reduced).Nodup ∧ ∃ issued gone taken,
      Ledger ((Repair.repair raw).content, {}) issued gone taken (r.reduced, r.table) ∧ issued.Nodup ∧
      (Block.Token.all r.reduced ++ gone).Perm issued ∧ (r.table.tokens ++ taken).Perm issued ∧
      (Exact r.reduced r.table ↔ gone.Perm taken) := by
  have hcontent : 'W' ∉ (Repair.repair raw).content := by
    have hchar (c : Char) (_ : c.toNat < 128) (hc : c ≠ 'W') : decide (c ≠ 'W') = true := decide_eq_true hc
    exact (Within.repair hchar (.of_not_mem hw)).not_mem
  have hlimit : r.table.issued < 10 ^ 6 := Nat.lt_of_le_of_lt (run_issued_le h) hsigns
  obtain ⟨issued, gone, taken, hledger⟩ := (run_trades h).1.ledger
  obtain ⟨ts, hbalanced⟩ := hledger.balanced hcontent hlimit
  have htext := hbalanced.text
  rw [← hbalanced.carries.all_eq] at htext
  have hdistinct := (List.nodup_append.1 (htext.nodup_iff.2 hbalanced.distinct)).1
  exact ⟨hdistinct, issued, gone, taken, hledger, hbalanced.distinct, htext, hbalanced.table, hbalanced.exact_iff⟩

/-- Inline code. -/
theorem run_exact_iff_code :
    ∃ r, ((run {} "\\verb|y|").run {}).1 = .ok r ∧ (Block.Token.all r.reduced).Nodup ∧ ∃ issued gone taken,
      Ledger ((Repair.repair "\\verb|y|").content, {}) issued gone taken (r.reduced, r.table) ∧ issued.Nodup ∧
      (Block.Token.all r.reduced ++ gone).Perm issued ∧ (r.table.tokens ++ taken).Perm issued ∧
      (Exact r.reduced r.table ↔ gone.Perm taken) := by
  have hrun : (match ((run {} "\\verb|y|").run {}).1 with
      | .ok _ => true
      | .error _ => false) = true := by decide +kernel
  split at hrun
  · rename_i r hr
    exact ⟨r, hr, run_exact_iff (by decide) (by decide) hr⟩
  · cases hrun

/-- The text before the first item of a list is dropped, and with it the token of the code in it. Its entry stays. -/
theorem itemPreamble_stale :
    'W' ∉ "\\begin\x7bitemize\x7d\\verb|x| \\item a\\end\x7bitemize\x7d".toList ∧
      ∃ r, ((run {} "\\begin\x7bitemize\x7d\\verb|x| \\item a\\end\x7bitemize\x7d").run {}).1 = .ok r ∧
        ¬Exact r.reduced r.table := by
  have hrun : (match ((run {} "\\begin\x7bitemize\x7d\\verb|x| \\item a\\end\x7bitemize\x7d").run {}).1 with
      | .ok r => decide ("LATEXPREVIEWVERBATIM000001".toList ∈ r.table.tokens ∧
          "LATEXPREVIEWVERBATIM000001".toList ∉ Block.Token.all r.reduced)
      | .error _ => false) = true := by decide +kernel
  refine ⟨by decide, ?_⟩
  split at hrun
  · rename_i r hr
    obtain ⟨hentry, hlost⟩ := of_decide_eq_true hrun
    exact ⟨r, hr, fun hexact => hlost (hexact.live _ hentry)⟩
  · cases hrun

end Reduction

end Galley
