/-
  The durable mail operation a generic enqueue may carry
  (src/mailer/delivery-operation.js): how it is read from the arguments of the
  built-in mail delivery job, and its fixed-size key.

  SHA-256 is the platform's; it is a parameter from strings to hex digests.
-/
import Velocious.BackgroundJobs.JobSemantics

namespace Velocious

open Foundation

def mailDeliveryJobName : String := "MailDeliveryJob"

/-- `MailerDeliveryOperation`, validated. -/
structure MailerDeliveryOperation where
  id : String
  payloadDigest : String
  providerKind : String
  providerRetentionMs : ℤ
  deriving DecidableEq, Repr

def truthy : Option Json → Bool
  | none | some .null | some (.bool false) | some (.num (.int 0)) | some (.num .nan)
  | some (.str "") => false
  | some _ => true

def nonEmptyString? : Option Json → Option String
  | some (.str s) => if s = "" then none else some s
  | _ => none

def deliveryOperationFromPayload (payload : Json) :
    Except VelociousError (Option MailerDeliveryOperation) := do
  let field := payload.field? "deliveryOperation"
  if !truthy field then return none
  let operation := field.getD .null
  match operation.field? "idempotency" with
  | some (.str "required") => pure ()
  | _ => throw ⟨"Persisted mail delivery operation idempotency must be required", none⟩
  let some id := nonEmptyString? (operation.field? "id")
    | throw ⟨"Persisted mail delivery operation requires an id", none⟩
  let payloadDigest ← match operation.field? "payloadDigest" with
    | some (.str digest) =>
      if startsWith digest "sha256:v1:" then pure digest
      else throw ⟨"Persisted mail delivery operation requires a versioned payload digest", none⟩
    | _ => throw ⟨"Persisted mail delivery operation requires a versioned payload digest", none⟩
  let some providerKind := nonEmptyString? (operation.field? "providerKind")
    | throw ⟨"Persisted mail delivery operation requires a provider kind", none⟩
  let retention := match operation.field? "providerRetentionMs" with
    | some (.num x) => x.safeInteger?.filter (0 < ·)
    | _ => none
  let some providerRetentionMs := retention
    | throw ⟨"Persisted mail delivery operation requires a positive retention", none⟩
  return some { id, payloadDigest, providerKind, providerRetentionMs }

/-- `mailDeliveryOperationForJob`: the operation in the first argument of a mail job. -/
def mailDeliveryOperationForJob (jobName : String) (args : List Json) :
    Except VelociousError (Option MailerDeliveryOperation) :=
  match args.head? with
  | some (.obj fields) =>
    if jobName = mailDeliveryJobName then deliveryOperationFromPayload (.obj fields) else pure none
  | _ => pure none

def mailDeliveryOperationKey (sha256 : String → String) (operationId : String) : String :=
  sha256 ("velocious-mail-delivery-operation:" ++ operationId)

end Velocious
