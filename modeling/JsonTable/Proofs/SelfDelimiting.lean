import JsonTable.Bytes

/-!
# Texts that tell where they end

If it can be told where each of some texts ends, whatever follows it, then they can be told
from one long text in which they stand one after the other. Nothing else need part them.
-/

namespace JsonTable

/-- The first of several marks is found, whatever comes after it. -/
theorem append_cons_inj_of_notMem {α : Type} {mark : α} {before before' after after' : List α}
    (h : mark ∉ before) (h' : mark ∉ before')
    (heq : before ++ mark :: after = before' ++ mark :: after') :
    before = before' ∧ after = after' := by
  induction before generalizing before' with
  | nil =>
      cases before' with
      | nil => exact ⟨rfl, (List.cons.inj heq).2⟩
      | cons y before' => exact absurd ((List.cons.inj heq).1 ▸ List.mem_cons_self) h'
  | cons x before ih =>
      cases before' with
      | nil => exact absurd ((List.cons.inj heq).1 ▸ List.mem_cons_self) h
      | cons y before' =>
          obtain ⟨rfl, hrest⟩ := List.cons.inj heq
          obtain ⟨rfl, hafter⟩ := ih (List.not_mem_of_not_mem_cons h)
            (List.not_mem_of_not_mem_cons h') hrest
          exact ⟨rfl, hafter⟩

/-- What is repeated at the beginning can be counted, if something else comes after it. -/
theorem replicate_append_cons_inj {α : Type} {x y z : α} (hy : y ≠ x) (hz : z ≠ x) {n m : Nat}
    {rest rest' : List α}
    (h : List.replicate n x ++ y :: rest = List.replicate m x ++ z :: rest') :
    n = m ∧ y :: rest = z :: rest' := by
  induction n generalizing m with
  | zero =>
      cases m with
      | zero => exact ⟨rfl, h⟩
      | succ m => exact absurd (List.cons.inj h).1 hy
  | succ n ih =>
      cases m with
      | zero => exact absurd (List.cons.inj h).1.symm hz
      | succ m =>
          obtain ⟨rfl, hrest⟩ := ih (List.cons.inj h).2
          exact ⟨rfl, hrest⟩

/-- Where the text of such a thing ends can be told, whatever follows it. -/
def SelfDelimiting {α : Type} (P : α → Prop) (toBytes : α → Bytes) : Prop :=
  ∀ ⦃a b : α⦄, P a → P b → ∀ ⦃rest rest' : Bytes⦄, toBytes a ++ rest = toBytes b ++ rest' →
    a = b ∧ rest = rest'

/-- Texts of such things one after the other tell what all of them are. -/
theorem SelfDelimiting.flatMap_inj {α : Type} {P : α → Prop} {toBytes : α → Bytes}
    (h : SelfDelimiting P toBytes) (hne : ∀ a, toBytes a ≠ []) {as bs : List α}
    (has : ∀ a ∈ as, P a) (hbs : ∀ b ∈ bs, P b)
    (heq : as.flatMap toBytes = bs.flatMap toBytes) : as = bs := by
  induction as generalizing bs with
  | nil =>
      cases bs with
      | nil => rfl
      | cons b bs => simp [hne b] at heq
  | cons a as ih =>
      cases bs with
      | nil => simp [hne a] at heq
      | cons b bs =>
          rw [List.flatMap_cons, List.flatMap_cons] at heq
          obtain ⟨hhead, hrest⟩ := h (has a (by simp)) (hbs b (by simp)) heq
          rw [hhead, ih (List.forall_mem_cons.mp has).2 (List.forall_mem_cons.mp hbs).2 hrest]

/-- What holds no quote itself ends, between quotes, at the second of them. -/
theorem selfDelimiting_inQuotes : SelfDelimiting (Byte.quote ∉ ·) Bytes.inQuotes := by
  intro a b ha hb rest rest' h
  simp only [Bytes.inQuotes, List.cons_append, List.append_assoc, List.cons.injEq, true_and,
    List.nil_append] at h
  exact append_cons_inj_of_notMem ha hb h

end JsonTable
