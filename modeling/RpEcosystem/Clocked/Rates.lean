import RpEcosystem.Clocked.Stream

/-!
# Streams by the number of their words

What a circuit between two streams does to the words in terms of their numbers, of which the first
is `1`: it marks some of them (`flagged`), sends each of them several times (`repeated`) or passes
on some of them (`everyNth`). Each comes with the effect of one more word.
-/

namespace Clocked

variable {α : Type}

/-- Every word with the flag of its number. -/
def flagged (p : Nat → Bool) (l : List α) : List (α × Bool) :=
  l.zipIdx.map fun q => (q.1, p (q.2 + 1))

/-- Every word `m` times. -/
def repeated (m : Nat) (l : List α) : List α := l.flatMap (List.replicate m)

/-- The words whose number is a multiple of `m`. -/
def everyNth (m : Nat) (l : List α) : List α :=
  ((flagged (fun k => decide (m ∣ k)) l).filter Prod.snd).map Prod.fst

theorem flagged_concat (p : Nat → Bool) (l : List α) (a : α) :
    flagged p (l ++ [a]) = flagged p l ++ [(a, p (l.length + 1))] := by
  simp [flagged, List.zipIdx_append]

theorem flagged_prefix (p : Nat → Bool) {l l' : List α} (h : l <+: l') :
    flagged p l <+: flagged p l' := by
  obtain ⟨rest, rfl⟩ := h
  simp [flagged, List.zipIdx_append]

theorem repeated_concat (m : Nat) (l : List α) (a : α) :
    repeated m (l ++ [a]) = repeated m l ++ List.replicate m a := by
  simp [repeated]

theorem everyNth_concat (m : Nat) (l : List α) (a : α) :
    everyNth m (l ++ [a]) = everyNth m l ++ if m ∣ l.length + 1 then [a] else [] := by
  rw [everyNth, flagged_concat, List.filter_append, List.map_append, everyNth]
  congr 1
  split
  next h => simp [h]
  next h => simp [h]

end Clocked
