import Galley.Proofs.Trees
/-!
# Trees from tokens

A tree is built from texts, notes and the elements that start tags open; what holds of these, whatever is put
inside, holds of every node of the tree (`everyOf_parse`).
-/

namespace Galley.Html

variable {P : Node → Prop}

namespace Build

/-- `P` holds of every node that is done, and of every open element whatever it comes to hold. -/
structure Keeps (P : Node → Prop) (b : Build) : Prop where
  top : EveryOf P b.top
  frames : ∀ f ∈ b.frames, (∀ children, P (.element f.name f.attributes children)) ∧ EveryOf P f.children

namespace Keeps

variable {b : Build}

theorem add (h : b.Keeps P) {n : Node} (hn : n.Every P) : (b.add n).Keeps P := by
  obtain ⟨htop, hframes⟩ := h
  unfold Build.add
  cases hb : b.frames with
  | nil => exact ⟨⟨hn, htop⟩, by simp⟩
  | cons f fs =>
    rw [hb] at hframes
    obtain ⟨hf, hfs⟩ := List.forall_mem_cons.1 hframes
    exact ⟨htop, List.forall_mem_cons.2 ⟨⟨hf.1, hn, hf.2⟩, hfs⟩⟩

theorem pop (h : b.Keeps P) : b.pop.Keeps P := by
  unfold Build.pop
  cases hb : b.frames with
  | nil => exact h
  | cons f fs =>
    have hframes := h.frames
    rw [hb] at hframes
    obtain ⟨hf, hfs⟩ := List.forall_mem_cons.1 hframes
    have hrest : ({ b with frames := fs } : Build).Keeps P := ⟨h.top, hfs⟩
    exact hrest.add ⟨hf.1 _, everyOf_reverse.2 hf.2⟩

theorem popTo (name : Text) (n : Nat) (h : b.Keeps P) : (Build.popTo name n b).Keeps P := by
  induction n generalizing b with
  | zero => exact h
  | succ n ih =>
    unfold Build.popTo
    split
    · exact h
    · split
      · exact h.pop
      · exact ih h.pop

theorem popAll (n : Nat) (h : b.Keeps P) : (Build.popAll n b).Keeps P := by
  induction n generalizing b with
  | zero => exact h
  | succ n ih => exact ih h.pop

variable (htext : ∀ s, P (.text s))

include htext

theorem flush (h : b.Keeps P) : b.flush.Keeps P := by
  unfold Build.flush
  split
  · exact h
  · have hrest : ({ b with pending := [] } : Build).Keeps P := ⟨h.top, h.frames⟩
    exact hrest.add (htext _)

theorem close (name : Text) (h : b.Keeps P) : (b.close name).Keeps P := by
  unfold Build.close
  dsimp only
  split
  · exact (h.flush htext).popTo name _
  · exact h.flush htext

theorem stop (name : Text) (h : b.Keeps P) : (b.stop name).Keeps P := by
  unfold Build.stop
  split
  · exact ⟨h.top, h.frames⟩
  · exact h.close htext name

theorem start {name : Text} {attributes : List Attribute} (closed : Bool) (h : b.Keeps P)
    (hp : ∀ children, P (.element name (attributes.map (settleAttribute name)) children)) :
    (b.start name attributes closed).Keeps P := by
  have hflush := h.flush htext
  have hopen : ({ b.flush with frames := ⟨name, attributes.map (settleAttribute name), []⟩ :: b.flush.frames } : Build).Keeps P :=
    ⟨hflush.top, List.forall_mem_cons.2 ⟨⟨hp, trivial⟩, hflush.frames⟩⟩
  unfold Build.start
  dsimp only
  split
  · exact hopen.stop htext name
  · split
    · have hclose := hopen.close htext name
      exact ⟨hclose.top, hclose.frames⟩
    · exact hopen

theorem finish (h : b.Keeps P) : EveryOf P b.finish := everyOf_reverse.2 ((h.flush htext).popAll _).top

end Keeps

end Build

theorem Build.settleAttribute_fst (element : Text) (a : Attribute) : (settleAttribute element a).1 = a.1 := by
  unfold settleAttribute
  split <;> rfl

theorem everyOf_parse {s : Text} (htext : ∀ s, P (.text s))
    (hnote : ∀ kind t, Token.note kind t ∈ tokens s → ∀ b : Build, P (.note kind (b.settle t)))
    (hstart : ∀ name attributes closed, Token.start name attributes closed ∈ tokens s →
      ∀ children, P (.element name (attributes.map (Build.settleAttribute name)) children)) :
    EveryOf P (parse s) := by
  have hbuild : ((tokens s).foldl Build.token {}).Keeps P := by
    refine List.foldlRecOn (motive := Build.Keeps P) _ _ ⟨trivial, by simp⟩ fun b hb t ht => ?_
    cases t with
    | start name attributes closed => exact hb.start htext closed (hstart name attributes closed ht)
    | stop name => exact hb.stop htext name
    | text s => exact ⟨hb.top, hb.frames⟩
    | note kind s => exact (hb.flush htext).add (hnote kind s ht _)
  exact hbuild.finish htext

/-! ## Trees with an element -/

def Node.IsElement : Node → Prop
  | .element _ _ _ => True
  | _ => False

namespace Build

/-- An element is open, or one outside of all others is done. -/
def HasElement (b : Build) : Prop := b.frames ≠ [] ∨ ∃ n ∈ b.top, n.IsElement

namespace HasElement

variable {b : Build}

theorem add (h : b.HasElement) (n : Node) : (b.add n).HasElement := by
  unfold Build.add
  split
  · rename_i hframes
    obtain ⟨m, hm, helement⟩ := h.resolve_left (· hframes)
    exact .inr ⟨m, List.mem_cons_of_mem n hm, helement⟩
  · exact .inl (List.cons_ne_nil _ _)

theorem pop (h : b.HasElement) : b.pop.HasElement := by
  unfold Build.pop
  split
  · exact h
  · rename_i f fs hframes
    unfold Build.add
    split
    · exact .inr ⟨_, List.mem_cons_self, trivial⟩
    · exact .inl (List.cons_ne_nil _ _)

theorem popTo (name : Text) (n : Nat) (h : b.HasElement) : (Build.popTo name n b).HasElement := by
  induction n generalizing b with
  | zero => exact h
  | succ n ih =>
    unfold Build.popTo
    split
    · exact h
    · split
      · exact h.pop
      · exact ih h.pop

theorem popAll (n : Nat) (h : b.HasElement) : (Build.popAll n b).HasElement := by
  induction n generalizing b with
  | zero => exact h
  | succ n ih => exact ih h.pop

theorem flush (h : b.HasElement) : b.flush.HasElement := by
  unfold Build.flush
  split
  · exact h
  · exact HasElement.add (b := { b with pending := [] }) h _

theorem close (name : Text) (h : b.HasElement) : (b.close name).HasElement := by
  unfold Build.close
  dsimp only
  split
  · exact h.flush.popTo name _
  · exact h.flush

theorem stop (name : Text) (h : b.HasElement) : (b.stop name).HasElement := by
  unfold Build.stop
  split
  · exact h
  · exact h.close name

theorem start (b : Build) (name : Text) (attributes : List Attribute) (closed : Bool) :
    (b.start name attributes closed).HasElement := by
  have hopen : HasElement
      { b.flush with frames := ⟨name, attributes.map (settleAttribute name), []⟩ :: b.flush.frames } :=
    .inl (List.cons_ne_nil _ _)
  unfold Build.start
  dsimp only
  split
  · exact hopen.stop name
  · split
    · exact hopen.close name
    · exact hopen

theorem token (h : b.HasElement) (t : Token) : (b.token t).HasElement := by
  cases t with
  | start name attributes closed => exact start b name attributes closed
  | stop name => exact h.stop name
  | text s => exact h
  | note kind s => exact h.flush.add _

end HasElement

theorem length_frames_add (b : Build) (n : Node) : (b.add n).frames.length = b.frames.length := by
  unfold add
  split
  · rfl
  · rename_i hframes
    rw [hframes]
    rfl

theorem length_frames_pop (b : Build) : b.pop.frames.length = b.frames.length - 1 := by
  unfold pop
  split
  · rename_i hframes
    simp [hframes]
  · rename_i hframes
    rw [length_frames_add, hframes]
    rfl

theorem frames_popAll {n : Nat} {b : Build} (h : b.frames.length ≤ n) : (popAll n b).frames = [] := by
  induction n generalizing b with
  | zero => exact List.eq_nil_of_length_eq_zero (Nat.le_zero.1 h)
  | succ n ih =>
    refine ih ?_
    rw [length_frames_pop]
    omega

theorem HasElement.finish {b : Build} (h : b.HasElement) : ∃ n ∈ b.finish, n.IsElement := by
  rcases h.flush.popAll b.flush.frames.length with hframes | ⟨n, hn, helement⟩
  · exact absurd (frames_popAll (Nat.le_refl _)) hframes
  · exact ⟨n, List.mem_reverse.2 hn, helement⟩

end Build

/-- Where markup begins with a start tag, its tree has an element outside of all others. -/
theorem exists_element_parse {s name : Text} {attributes : List Attribute} {closed : Bool} {ts : List Token}
    (h : tokens s = .start name attributes closed :: ts) : ∃ n ∈ parse s, n.IsElement := by
  have hbuild : ((tokens s).foldl Build.token {}).HasElement := by
    rw [h, List.foldl_cons]
    exact List.foldlRecOn (motive := Build.HasElement) _ _ (.start {} name attributes closed) fun _ hb t _ => hb.token t
  exact hbuild.finish

end Galley.Html
