import Galley.Proofs.StageTrades
/-!
# How many tokens a document can use up

Every construct that is taken out begins with a backslash or a dollar, and the token in its place holds neither. So a
trade pays for its token with such a sign, and none brings any in: a document gets at most as many tokens as it has
backslashes and dollars (`run_supply`).
-/

namespace Galley

theorem signs_of_tokenChars {s : Text} (h : ∀ c ∈ s, Block.isTokenChar c = true) : signs s = 0 := by
  refine signs_eq_zero fun c hc => ?_
  rw [Bool.eq_false_iff]
  intro hsign
  have hplain := h c hc
  rw [isTokenChar_of_isSign hsign] at hplain
  cases hplain

theorem signs_placed (ownLine : Bool) (kind : Block.Kind) (n : Nat) :
    signs (placed ownLine (Block.Token.ofNumber kind n)) = 0 := by
  have htoken : signs (Block.Token.ofNumber kind n) = 0 := signs_of_tokenChars fun _ => Block.isTokenChar_of_mem
  cases ownLine with
  | false => exact htoken
  | true =>
    simp only [placed, if_true, signs_append, htoken]
    rfl

/-- A trade pays for the token that it hands out with a sign. -/
theorem Trade.supply {p q : Text × Block.Table} (h : Trade p q) :
    q.2.issued + signs q.1 ≤ p.2.issued + signs p.1 := by
  cases h with
  | @put _ _ _ T kind fragment ownLine hx =>
    have hissued := T.issued_register kind fragment
    have htoken : signs (placed ownLine (T.register kind fragment).1) = 0 := signs_placed ownLine kind (T.issued + 1)
    have hsigned := hx.signed
    simp only [signs_append]
    omega
  | strike hx hy =>
    have hnone := hy.1
    simp only [signs_append]
    omega
  | @fold _ T markup => exact Nat.le_of_eq (congrArg (· + _) (T.absorb_subset markup).2)

theorem Trades.supply {p q : Text × Block.Table} (h : Trades p q) :
    q.2.issued + signs q.1 ≤ p.2.issued + signs p.1 := by
  induction h with
  | refl => exact Nat.le_refl _
  | tail _ htrade ih => exact htrade.supply.trans ih

namespace Reduction

/-- A document gets no more tokens than it has backslashes and dollars. -/
theorem run_issued_le {kit : Kit} {raw : Text} {r : Reduction} (h : ((run kit raw).run {}).1 = .ok r) :
    r.table.issued ≤ signs raw := by
  have hsupply := (run_trades h).1.supply
  have hrepair := Repair.signs_repair raw
  have hempty : ({} : Block.Table).issued = 0 := rfl
  dsimp only at hsupply
  omega

/-- A document that is reduced gets one token for each construct that the stages count, and no more tokens than it has
    backslashes and dollars. So a document of less than a million characters, such as one within the default limit,
    never runs out of six digits, and each of its tokens is read whole wherever it stands. -/
theorem run_supply {kit : Kit} {raw : Text} {r : Reduction} (h : ((run kit raw).run {}).1 = .ok r) :
    r.table.issued = taken r.counts ∧ r.table.issued ≤ signs raw ∧ ({} : Settings).maxDocumentChars ≤ 999999 ∧
      (raw.length ≤ 999999 → ∀ n ≤ r.table.issued, ∀ kind before rest,
        (Text.ofNatPadded 6 n).length = 6 ∧
        Block.Token.reader before (Block.Token.ofNumber kind n ++ rest) = some (Block.Token.ofNumber kind n, rest)) := by
  have hsupply := run_issued_le h
  refine ⟨(run_trades h).2.symm, hsupply, by decide, fun hlength k hk kind before rest => ?_⟩
  have hshort : k < 10 ^ 6 := by
    have hsigns := signs_le_length raw
    omega
  exact ⟨Block.Token.length_padded hshort (by decide), Block.Token.reader_ofNumber kind hshort before rest⟩

/-- Code and a quote. -/
theorem run_supply_code :
    ∃ r, ((run {} "\\verb|y| \\begin\x7bquote\x7dz\\end\x7bquote\x7d").run {}).1 = .ok r ∧
      r.table.issued = taken r.counts ∧ r.table.issued ≤ signs "\\verb|y| \\begin\x7bquote\x7dz\\end\x7bquote\x7d" ∧
      ({} : Settings).maxDocumentChars ≤ 999999 ∧
      ("\\verb|y| \\begin\x7bquote\x7dz\\end\x7bquote\x7d".toList.length ≤ 999999 → ∀ n ≤ r.table.issued, ∀ kind before rest,
        (Text.ofNatPadded 6 n).length = 6 ∧
        Block.Token.reader before (Block.Token.ofNumber kind n ++ rest) = some (Block.Token.ofNumber kind n, rest)) := by
  have hrun : (match ((run {} "\\verb|y| \\begin\x7bquote\x7dz\\end\x7bquote\x7d").run {}).1 with
      | .ok _ => true
      | .error _ => false) = true := by decide +kernel
  split at hrun
  · rename_i r hr
    exact ⟨r, hr, run_supply hr⟩
  · cases hrun

end Reduction

end Galley
