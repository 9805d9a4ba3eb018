import Mathlib.Data.List.Basic

/-! Computations that emit effects in order and end in a value or a fault. The
effects emitted before a fault stay visible. -/

namespace MailruHttp.Library

universe u v w

structure Outcome (Effect : Type u) (Fault : Type v) (α : Type w) where
  effects : List Effect
  result : Except Fault α

namespace Outcome

variable {Effect : Type u} {Fault : Type v} {α β : Type w}

def bind (first : Outcome Effect Fault α) (next : α → Outcome Effect Fault β) :
    Outcome Effect Fault β :=
  match first.result with
  | .ok value => ⟨first.effects ++ (next value).effects, (next value).result⟩
  | .error fault => ⟨first.effects, .error fault⟩

instance : Monad (Outcome Effect Fault) where
  pure value := ⟨[], .ok value⟩
  bind := bind

def emit (effect : Effect) : Outcome Effect Fault PUnit := ⟨[effect], .ok ⟨⟩⟩

def fail (fault : Fault) : Outcome Effect Fault α := ⟨[], .error fault⟩

def ofOption (fault : Fault) : Option α → Outcome Effect Fault α
  | some value => ⟨[], .ok value⟩
  | none => fail fault

@[simp] theorem effects_pure (value : α) :
    (pure value : Outcome Effect Fault α).effects = [] := rfl

@[simp] theorem result_pure (value : α) :
    (pure value : Outcome Effect Fault α).result = .ok value := rfl

@[simp] theorem ofOption_some (fault : Fault) (value : α) :
    (ofOption fault (some value) : Outcome Effect Fault α) = pure value := rfl

@[simp] theorem pure_bind (value : α) (next : α → Outcome Effect Fault β) :
    (pure value : Outcome Effect Fault α) >>= next = next value := rfl

@[simp] theorem bind_pure (first : Outcome Effect Fault α) : first >>= pure = first := by
  obtain ⟨effects, result⟩ := first
  cases result <;> simp [Bind.bind, bind]

theorem bind_of_ok {first : Outcome Effect Fault α} (success : first.result = .ok value)
    (next : α → Outcome Effect Fault β) :
    first >>= next = ⟨first.effects ++ (next value).effects, (next value).result⟩ := by
  simp [Bind.bind, bind, success]

theorem bind_of_error {first : Outcome Effect Fault α} (failure : first.result = .error fault)
    (next : α → Outcome Effect Fault β) : first >>= next = ⟨first.effects, .error fault⟩ := by
  simp [Bind.bind, bind, failure]

theorem bind_assoc {γ : Type w} (first : Outcome Effect Fault α)
    (next : α → Outcome Effect Fault β) (last : β → Outcome Effect Fault γ) :
    first >>= next >>= last = first >>= fun value => next value >>= last := by
  obtain ⟨effects, result⟩ := first
  cases result with
  | error fault => rfl
  | ok value =>
    change (⟨effects ++ (next value).effects, (next value).result⟩ : Outcome Effect Fault β) >>= last =
      ⟨effects ++ (next value >>= last).effects, (next value >>= last).result⟩
    obtain ⟨later, result⟩ := next value
    cases result with
    | error fault => rfl
    | ok middle => simp [Bind.bind, bind]

theorem result_bind_ok_iff {first : Outcome Effect Fault α} {next : α → Outcome Effect Fault β}
    {final : β} : (first >>= next).result = .ok final ↔
      ∃ value, first.result = .ok value ∧ (next value).result = .ok final := by
  cases success : first.result with
  | ok value => simp [bind_of_ok success]
  | error fault => simp [bind_of_error success]

end Outcome

end MailruHttp.Library
