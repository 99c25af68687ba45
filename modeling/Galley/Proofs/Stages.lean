import Galley.Proofs.CalmInline
import Galley.Proofs.Search
import Galley.Proofs.Tokens
import Galley.Reduction
/-!
# What the stages take out of a row

Every stage behind the pictures takes environments out of a nested row whole, each up to the end marker
that matches, and leaves the other marks as they are (`Keeps`). The names of these environments are
the taken names.
-/

namespace Galley

/-! ## Tokens are plain -/

/-- A line end, or a character of a token. -/
def isPlaceholderChar (c : Char) : Bool := c = '\n' || isCapital c || c.isDigit

theorem Block.Token.isPlaceholderChar_of_mem {c : Char} {kind : Block.Kind} {n : Nat}
    (h : c ∈ Block.Token.ofNumber kind n) : isPlaceholderChar c = true := by
  rw [ofNumber, List.append_assoc, List.mem_append, List.mem_append] at h
  rcases h with h | h | h
  · have hall : word.all isPlaceholderChar = true := by decide
    exact List.all_eq_true.1 hall c h
  · simp [isPlaceholderChar, isCapital_of_mem_name h]
  · simp [isPlaceholderChar, isDigit_of_mem_padded h]

theorem isPlainChar_of_isPlaceholderChar {c : Char} (h : isPlaceholderChar c = true) :
    isPlainChar c = true ∧ c ≠ '[' := by
  have hle : c.toNat ≤ 90 := by
    simp only [isPlaceholderChar, isCapital, Char.isDigit, Bool.or_eq_true, Bool.and_eq_true, decide_eq_true_eq] at h
    rcases h with (rfl | ⟨-, h⟩) | ⟨-, h⟩
    · decide
    · exact h
    · exact Nat.le_trans (show c.toNat ≤ 57 from h) (by decide)
  have hne (x : Char) (hx : 90 < x.toNat) : c ≠ x := fun he => by rw [he] at hle; omega
  have hd : c ≠ '$' := fun he => by rw [he] at h; cases h
  refine ⟨?_, hne '[' (by decide)⟩
  have hp : ¬57344 ≤ c.toNat := by omega
  simp [isPlainChar, hne '\\' (by decide), hne '{' (by decide), hne '}' (by decide), hd, hp]

theorem Bench.ends_register (kind : Block.Kind) (fragment : Text) (ownLine : Bool) :
    Bench.Ends (Bench.register kind fragment ownLine) fun t => ∀ c ∈ t, isPlaceholderChar c = true := by
  refine Bench.ends_get.bind fun b _ => (Bench.ends_set _).bind fun _ _ => .pure ?_
  have htoken : ∀ c ∈ (b.table.register kind fragment).1, isPlaceholderChar c = true :=
    fun c hc => Block.Token.isPlaceholderChar_of_mem hc
  have hbreak : ∀ c ∈ "\n\n".toList, isPlaceholderChar c = true := List.all_eq_true.1 (by decide)
  cases ownLine with
  | false => exact htoken
  | true =>
    intro c hc
    simp only [if_true, List.mem_append] at hc
    rcases hc with (hc | hc) | hc
    · exact hbreak c hc
    · exact htoken c hc
    · exact hbreak c hc

/-! ## Taken names -/

/-- The names of the environments that some stage takes out. -/
def takenNames : List Text :=
  ["tikzpicture".toList] ++ Extract.Diagram.placeholders.map (·.1) ++ Extract.Formula.environmentNames ++
    texts ["thebibliography", "abstract", "keywords", "IEEEkeywords"] ++ Extract.Table.floatNames ++
    Extract.Table.tabularNames ++ Extract.List.environmentNames ++
    texts ["algorithmic", "algorithm", "algorithm*"] ++ Extract.Box.environmentNames ++
    Extract.Theorem.namesOf Extract.Theorem.builtinKinds

def isTaken (n : Text) : Bool := takenNames.contains n

theorem brace_not_mem_of_isTaken {n : Text} (h : isTaken n = true) : '}' ∉ n := by
  have hall : ∀ n ∈ takenNames, '}' ∉ n := by decide
  exact hall n (by simpa [isTaken] using h)

/-! ## Stages that keep rows nested -/

/-- The text is a row that has all marks of `d` but those of environments taken out. -/
def Reduces (d : Row) (s : Text) : Prop := ∃ d' : Row, s = d'.source ∧ Cuts isTaken d.marks d'.marks

/-- A nested row is made one with environments taken out. -/
def Keeps (stage : Text → Bench Text) : Prop :=
  ∀ (d : Row) (k : Nat), Nested k d.marks → Bench.Ends (stage d.source) (Reduces d)

theorem Reduces.refl (d : Row) : Reduces d d.source := ⟨d, rfl, .refl _⟩

theorem Row.Holds.reduces {d : Row} {e : Environment} (h : d.Holds e) (hn : isTaken e.name = true) {t : Text}
    (ht : ∀ c ∈ t, isPlaceholderChar c = true) : Reduces d (e.replaceBy t) :=
  h.replaceBy hn fun c hc => (isPlainChar_of_isPlaceholderChar (ht c hc)).1

namespace Keeps

variable {f g : Text → Bench Text}

/-- A stage on what another one has left. -/
theorem after (hg : Keeps g) {d : Row} {k : Nat} (hd : Nested k d.marks) {s : Text} (hs : Reduces d s) :
    Bench.Ends (g s) (Reduces d) := by
  obtain ⟨d', rfl, hcuts⟩ := hs
  obtain ⟨j, hj, -⟩ := hcuts.nested hd
  refine (hg d' j hj).mono fun t ht => ?_
  obtain ⟨d'', rfl, hcuts'⟩ := ht
  exact ⟨d'', rfl, hcuts.trans hcuts'⟩

theorem bind (hf : Keeps f) (hg : Keeps g) : Keeps fun s => f s >>= g :=
  fun d k hd => (hf d k hd).bind fun _ hs => hg.after hd hs

theorem foldlM {α : Type} {l : List α} {f : Text → α → Bench Text} (hf : ∀ x ∈ l, Keeps fun s => f s x) :
    Keeps fun s => l.foldlM f s :=
  fun d _ hd => Bench.Ends.foldlM (.refl d) fun _ x hx hs => (hf x hx).after hd hs

theorem rounds {construct : Text} {cap : Int} {step : Text → Bench (Option Text)}
    (hstep : ∀ (d : Row) (k : Nat), Nested k d.marks → Bench.Ends (step d.source) fun r => ∀ s ∈ r, Reduces d s) :
    Keeps (Bench.rounds construct cap step) := by
  intro d k hd
  refine Bench.ends_rounds_of_step (.refl d) fun s hs => ?_
  obtain ⟨d', rfl, hcuts⟩ := hs
  obtain ⟨j, hj, -⟩ := hcuts.nested hd
  refine (hstep d' j hj).mono fun r hr t ht => ?_
  obtain ⟨d'', rfl, hcuts'⟩ := hr t ht
  exact ⟨d'', rfl, hcuts.trans hcuts'⟩

/-- Rounds that take the first environment `name` out. -/
theorem environments {construct name : Text} {cap : Int} (hn : isTaken name = true)
    (unclosed : Unclosed → Text → Bench (Option Text)) {take : Environment → Bench (Option Text)}
    (htake : ∀ (d : Row) e, d.Holds e → e.name = name → Bench.Ends (take e) fun r => ∀ s ∈ r, Reduces d s) :
    Keeps (Bench.rounds construct cap fun s =>
      match Environment.find name s with
      | .error u => unclosed u s
      | .ok none => pure none
      | .ok (some e) => take e) := by
  refine rounds fun d k hd => ?_
  rcases Row.find_source (brace_not_mem_of_isTaken hn) d hd with ⟨h, -⟩ | ⟨e, h, hholds, hname⟩
  · rw [h]
    exact .pure (by simp)
  · rw [h]
    exact htake d e hholds hname

/-- A calm text in which the reader finds nothing is left as it is. -/
theorem of_eq (h : ∀ s, Calm s → f s = pure s) : Keeps f := by
  intro d k hd
  rw [h _ d.calm]
  exact .pure (.refl d)

end Keeps

/-- A fragment takes the place of an environment. -/
theorem ends_put {d : Row} {e : Environment} (h : d.Holds e) (hn : isTaken e.name = true) (kind : Block.Kind)
    {render : Bench Text} (hr : Bench.Ends render fun _ => True) :
    Bench.Ends (do
      let token ← Bench.register kind (← render)
      pure (some (e.replaceBy token))) fun r => ∀ s ∈ r, Reduces d s := by
  refine hr.bind fun fragment _ => (Bench.ends_register kind fragment true).bind fun t ht => .pure ?_
  intro s hs
  obtain rfl := Option.some.inj hs
  exact h.reduces hn ht

end Galley
