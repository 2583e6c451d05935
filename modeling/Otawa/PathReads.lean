namespace Otawa.PathReads

structure LabelledGraph (V B : Type) where
  entry : V
  exit : V
  link : V → V → Prop
  label : V → List B

variable {V W B : Type}

/-- The labels along a path from a vertex to the exit. -/
inductive LabelledGraph.Reads (g : LabelledGraph V B) : V → List B → Prop
  | exit : Reads g g.exit []
  | step {a b : V} {read : List B} : g.link a b → Reads g b read → Reads g a (g.label a ++ read)

/-- The labels along the paths from the entry to the exit. -/
def LabelledGraph.Language (g : LabelledGraph V B) (read : List B) : Prop := g.Reads g.entry read

theorem LabelledGraph.Reads.of_ne_exit {g : LabelledGraph V B} {a : V} {read : List B} (path : g.Reads a read)
    (other : a ≠ g.exit) : ∃ b rest, g.link a b ∧ g.Reads b rest ∧ read = g.label a ++ rest := by
  cases path with
  | exit => exact absurd rfl other
  | step linked rest => exact ⟨_,_,linked,rest,rfl⟩

theorem LabelledGraph.Reads.of_exit {g : LabelledGraph V B} {read : List B} (last : ∀ b, ¬ g.link g.exit b)
    (path : g.Reads g.exit read) : read = [] := by
  generalize start : g.exit = a at path
  cases path with
  | exit => rfl
  | step linked _ => exact absurd linked (start ▸ last _)

theorem LabelledGraph.Reads.transfer {g : LabelledGraph V B} {h : LabelledGraph W B} (simulates : V → W → Prop)
    (label : ∀ a b, simulates a b → g.label a = h.label b)
    (link : ∀ a b next, simulates a b → g.link a next → ∃ next', simulates next next' ∧ h.link b next')
    (exit : ∀ b, simulates g.exit b → b = h.exit) {a : V} {read : List B} (path : g.Reads a read) :
    ∀ b, simulates a b → h.Reads b read := by
  induction path with
  | exit =>
    intro b same
    rw [exit b same]
    exact .exit
  | step linked _ rest =>
    intro b same
    obtain ⟨next,again,linked'⟩ := link _ _ _ same linked
    rw [label _ b same]
    exact .step linked' (rest next again)

end Otawa.PathReads
