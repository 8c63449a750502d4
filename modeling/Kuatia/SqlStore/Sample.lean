import Kuatia.SqlStore.Row
import Kuatia.Storage.Sample

/-! # A JSON library to compute with

A text is the value that was written.
-/

namespace Kuatia.Sample

inductive Written where
  | metadata (value : Metadata)
  | envelope (value : Envelope)
  | receipt (value : Receipt)
  | event (value : LedgerEvent)

def invalidJson {α : Type} : Except StoreError α := .error (.internal "invalid JSON")

scoped instance : Json where
  Text := Written
  metadata := ⟨.metadata, fun text => match text with
    | .metadata value => .ok value
    | _ => invalidJson, fun _ => rfl⟩
  envelope := ⟨.envelope, fun text => match text with
    | .envelope value => .ok value
    | _ => invalidJson, fun _ => rfl⟩
  receipt := ⟨.receipt, fun text => match text with
    | .receipt value => .ok value
    | _ => invalidJson, fun _ => rfl⟩
  event := ⟨.event, fun text => match text with
    | .event value => .ok value
    | _ => invalidJson, fun _ => rfl⟩

end Kuatia.Sample
