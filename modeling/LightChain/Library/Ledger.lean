import Mathlib

/-!
# Debits against a list of accounts

An entry takes an amount from an account, and an account is a position in a list of
balances. `settle` applies a list of entries, cutting a balance at zero. Where no account
owes more than it has, nothing is cut: every balance falls by what its account owes, and
the total by the sum of the amounts.
-/
namespace LightChain.Library
open List

variable {ε : Type*} (account amount : ε → Nat)

/-- What the entries take from one account. -/
def debit (entries : List ε) (a : Nat) : Nat :=
  ((entries.filter fun e => account e = a).map amount).sum

def settle (balances : List Nat) (entries : List ε) : List Nat :=
  entries.foldl (fun bs e => bs.modify (account e) (· - amount e)) balances

variable {account amount} {balances : List Nat} {entries : List ε} {a : Nat}

@[simp] theorem debit_nil : debit account amount [] a = 0 := rfl

theorem debit_cons (e : ε) : debit account amount (e :: entries) a =
    (if account e = a then amount e else 0) + debit account amount entries a := by
  by_cases h : account e = a <;> simp [debit, h]

theorem debit_concat (e : ε) : debit account amount (entries ++ [e]) a =
    debit account amount entries a + if account e = a then amount e else 0 := by
  by_cases h : account e = a <;> simp [debit, h]

@[simp] theorem settle_nil : settle account amount balances [] = balances := rfl

theorem settle_cons (e : ε) : settle account amount balances (e :: entries) =
    settle account amount (balances.modify (account e) (· - amount e)) entries := rfl

theorem getElem?_settle : (settle account amount balances entries)[a]? =
    balances[a]?.map (· - debit account amount entries a) := by
  induction entries generalizing balances with
  | nil => simp
  | cons e entries ih =>
    rw [settle_cons, ih, getElem?_modify, debit_cons]
    by_cases h : account e = a
    · simp [h, Function.comp_def, Nat.sub_sub]
    · simp [h]

theorem sum_modify_sub (h : a < balances.length) {k : Nat} (hk : k ≤ balances[a]) :
    (balances.modify a (· - k)).sum + k = balances.sum := by
  induction balances generalizing a with
  | nil => simp at h
  | cons b rest ih =>
    cases a with
    | zero =>
      have hb : k ≤ b := hk
      simp only [modify_zero_cons, sum_cons]
      omega
    | succ a =>
      have hrest := ih (Nat.lt_of_succ_lt_succ h) hk
      simp only [modify_succ_cons, sum_cons]
      omega

theorem sum_modify_add (h : a < balances.length) {k : Nat} :
    (balances.modify a (· + k)).sum = balances.sum + k := by
  have hback : (balances.modify a (· + k)).modify a (· - k) = balances := by
    simp [modify_modify_eq, Function.comp_def, ← Function.id_def]
  have hlt : a < (balances.modify a (· + k)).length := by simpa using h
  rw [← sum_modify_sub hlt (show k ≤ _ by simp), hback]

/-- Where every account has what it owes, the total falls by the sum of the amounts. -/
theorem sum_settle (h : ∀ a, debit account amount entries a ≤ balances.getD a 0)
    (hmem : ∀ e ∈ entries, account e < balances.length) :
    (settle account amount balances entries).sum + (entries.map amount).sum = balances.sum := by
  induction entries generalizing balances with
  | nil => simp
  | cons e entries ih =>
    have hlt := hmem e mem_cons_self
    have howed := h (account e)
    rw [debit_cons, if_pos rfl, getD_eq_getElem _ _ hlt] at howed
    have hone := sum_modify_sub hlt (show amount e ≤ balances[account e] by omega)
    have hrest : ∀ a, debit account amount entries a ≤
        (balances.modify (account e) (· - amount e)).getD a 0 := by
      intro a
      have ha := h a
      rw [debit_cons] at ha
      rw [getD_eq_getElem?_getD, getElem?_modify] at *
      by_cases hacc : account e = a
      · subst hacc
        rw [getElem?_eq_getElem hlt] at ha ⊢
        simp only [if_true, Option.getD_some, Option.map_eq_map, Option.map_some] at ha ⊢
        omega
      · cases hb : balances[a]? <;> simp_all
    have hsum := ih hrest fun e' he' => by
      simpa using hmem e' (mem_cons_of_mem _ he')
    rw [settle_cons, map_cons, sum_cons]
    omega

end LightChain.Library
