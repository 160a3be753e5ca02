/-! Error values shared by every component: a stable code for programmatic handling
and a message for humans (part of which travels to peers in reject messages). -/
namespace Blockchain

inductive ErrorCode where
  | parseError
  | invalidMessage
  | invalidTransaction
  | invalidBlock
  | invalidStateTransition
  | storageCorruption
  | unsupportedVersion
  | resourceLimitExceeded
  | policyRejected
  | peerMisbehavior
  | invalidConfig
deriving DecidableEq, Repr

structure Error where
  code : ErrorCode
  message : String
deriving DecidableEq, Repr

abbrev Result (α : Type) := Except Error α

def makeError {α : Type} (code : ErrorCode) (detail : String) : Result α :=
  .error ⟨code, detail⟩

@[simp]
theorem makeError_eq_ok {α : Type} {code : ErrorCode} {detail : String} {a : α} :
    makeError code detail = .ok a ↔ False := by
  simp [makeError]

theorem guard_eq_ok {α : Type} {c : Prop} [Decidable c] {code : ErrorCode} {detail : String}
    {x : Result α} {a : α} :
    (if c then makeError code detail else x) = .ok a ↔ ¬ c ∧ x = .ok a := by
  by_cases hc : c <;> simp [hc]

end Blockchain
