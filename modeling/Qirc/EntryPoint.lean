import Qirc.IR.Module
import Qirc.Word

/-!
# The entry point of a module

The entry function carries attributes that name the profile and the resources it needs, and the
module carries flags for the version and for what is managed dynamically. Stamping again replaces
them.
-/

namespace Qirc

open IR

namespace EntryPoint

def count (what : String) (n : Int) : Except Failure Nat :=
  if 0 ≤ n ∧ n < Word.size32 then .ok n.toNat else .error (.error (.within what .outOfRange))

def attrs (qubits results : Nat) : List Attr :=
  [⟨"entry_point", none⟩, ⟨"output_labeling_schema", none⟩, ⟨"qir_profiles", some "custom"⟩,
    ⟨"required_num_qubits", some (toString qubits)⟩,
    ⟨"required_num_results", some (toString results)⟩]

def mustAgree : Int := 1

def greatest : Int := 7

def flags : List Flag :=
  [⟨mustAgree, "qir_major_version", .int .i32 1⟩, ⟨greatest, "qir_minor_version", .int .i32 0⟩,
    ⟨mustAgree, "dynamic_qubit_management", .bool false⟩,
    ⟨mustAgree, "dynamic_result_management", .bool false⟩]

end EntryPoint

def stampEntry (m : Module) (entry : String) (qubits results : Int) : Except Failure Module :=
  let missing : Except Failure Module := .error (.error (.entryFunction entry))
  match m.func? entry with
  | none => missing
  | some f =>
    if (m.func f).isDeclaration then missing
    else do
      let q ← EntryPoint.count "qubit count" qubits
      let r ← EntryPoint.count "result count" results
      let m := m.updateFunc f (fun x => (EntryPoint.attrs q r).foldl Function.setAttr x)
      .ok { m with flags := EntryPoint.flags.foldl (fun fs x => put Flag.key x fs) m.flags }

end Qirc
