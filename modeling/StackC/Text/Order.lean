import StackC.Text.Bytes

/-!
The order of byte strings: the first byte that differs decides, and a proper
beginning comes first.
-/

namespace StackC

namespace Bytes

/-- Whether `s` comes strictly before `t`. -/
def before : (s t : Bytes) → Bool
  | _, [] => false
  | [], _ :: _ => true
  | a :: s, b :: t =>
    if a < b then true else if a = b then before s t else false

theorem before_irrefl (s : Bytes) : before s s = false := by
  induction s with
  | nil => rfl
  | cons a s ih => simp [before, ih]

theorem before_trans {s t u : Bytes} (hst : before s t = true)
    (htu : before t u = true) : before s u = true := by
  induction s generalizing t u with
  | nil =>
    cases u with
    | nil => cases t <;> simp [before] at htu
    | cons c u => rfl
  | cons a s ih =>
    cases t with
    | nil => simp [before] at hst
    | cons b t =>
      cases u with
      | nil => simp [before] at htu
      | cons c u =>
        simp only [before] at hst htu ⊢
        by_cases hab : a < b
        · have hac : a < c := by
            by_cases hbc : b < c
            · exact UInt8.lt_trans hab hbc
            · by_cases hbc' : b = c
              · exact hbc' ▸ hab
              · simp [hbc, hbc'] at htu
          simp [hac]
        · by_cases hab' : a = b
          · subst hab'
            by_cases hac : a < c
            · simp [hac]
            · by_cases hac' : a = c
              · subst hac'
                simp at hst htu ⊢
                exact ih hst htu
              · simp [hac, hac'] at htu
          · simp [hab, hab'] at hst

/-- Of two different byte strings one comes before the other. -/
theorem before_of_not_before {s t : Bytes} (h : before s t = false)
    (hne : s ≠ t) : before t s = true := by
  induction s generalizing t with
  | nil =>
    cases t with
    | nil => exact absurd rfl hne
    | cons b t => simp [before] at h
  | cons a s ih =>
    cases t with
    | nil => rfl
    | cons b t =>
      simp only [before] at h ⊢
      by_cases hab : a < b
      · simp [hab] at h
      · by_cases hab' : a = b
        · subst hab'
          simp at h ⊢
          exact ih h (fun e => hne (e ▸ rfl))
        · have hba : b < a := by
            rw [UInt8.lt_iff_toNat_lt] at hab ⊢
            have : a.toNat ≠ b.toNat := fun e => hab' (UInt8.toNat_inj.mp e)
            omega
          simp [hba]

end Bytes

end StackC
