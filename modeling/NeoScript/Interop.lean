import NeoScript.Nef.Basic

/-!
# Interop — names of services and contracts

* `Interop.hash` — the operand that calls a service;
* `Registry` — names by hash;
* `Registry.n3` — the services and native contracts of the network.
-/

namespace NeoScript

namespace Interop

def hash (name : String) : Nat :=
  Bytes.toNat ((Sha256.digest (Utf8.encode name)).take 4)

def services : List String :=
  ["System.Contract.Call",
    "System.Contract.CallNative",
    "System.Contract.GetCallFlags",
    "System.Contract.CreateStandardAccount",
    "System.Contract.CreateMultisigAccount",
    "System.Contract.NativeOnPersist",
    "System.Contract.NativePostPersist",
    "System.Crypto.CheckSig",
    "System.Crypto.CheckMultisig",
    "System.Iterator.Next",
    "System.Iterator.Value",
    "System.Runtime.Platform",
    "System.Runtime.GetNetwork",
    "System.Runtime.GetAddressVersion",
    "System.Runtime.GetTrigger",
    "System.Runtime.GetTime",
    "System.Runtime.GetScriptContainer",
    "System.Runtime.GetExecutingScriptHash",
    "System.Runtime.GetCallingScriptHash",
    "System.Runtime.GetEntryScriptHash",
    "System.Runtime.LoadScript",
    "System.Runtime.CheckWitness",
    "System.Runtime.GetInvocationCounter",
    "System.Runtime.GetRandom",
    "System.Runtime.Log",
    "System.Runtime.Notify",
    "System.Runtime.GetNotifications",
    "System.Runtime.GasLeft",
    "System.Runtime.BurnGas",
    "System.Runtime.CurrentSigners",
    "System.Storage.GetContext",
    "System.Storage.GetReadOnlyContext",
    "System.Storage.AsReadOnly",
    "System.Storage.Get",
    "System.Storage.Find",
    "System.Storage.Put",
    "System.Storage.Delete",
    "System.Storage.Local.Get",
    "System.Storage.Local.Find",
    "System.Storage.Local.Put",
    "System.Storage.Local.Delete"]

def nativeContracts : List (String × String) :=
  [("0xfffdc93764dbaddd97c48f252a53ea4643faa3fd", "ContractManagement"),
    ("0xacce6fd80d44e1796aa0c2c625e9e4e0ce39efc0", "StdLib"),
    ("0x726cb6e0cd8628a1350a611384688911ab75f51b", "CryptoLib"),
    ("0xda65b600f7124ce6c79950c1772a36403104f2be", "LedgerContract"),
    ("0xef4073a0f2b305a38ec4050e4d3d28bc40ea63f5", "NeoToken"),
    ("0xd2a4cff31913016155e38e474a2c06d08be276cf", "GasToken"),
    ("0xcc5e4edd9f5f8dba8bb65734541df7a1c081c67b", "PolicyContract"),
    ("0x49cf4e5378ffcd4dec034fd98a174c5491e395e2", "RoleManagement"),
    ("0xfe924b7cfe89ddd271abaf7210a80a7e11178758", "OracleContract")]

end Interop

/-- Names by hash; the latest entry for a hash comes first. -/
structure Registry where
  syscalls : List (Nat × String)
  /-- Contracts by the text of their hash. -/
  contracts : List (String × String)
  deriving DecidableEq, Repr

namespace Registry

def empty : Registry := ⟨[], []⟩

def addSyscall (r : Registry) (name : String) : Registry :=
  { r with syscalls := (Interop.hash name, name) :: r.syscalls }

/-- The text of a hash is kept in lower case. -/
def addContract (r : Registry) (hash name : String) : Registry :=
  { r with contracts := (hash.map Char.toLower, name) :: r.contracts }

def ofNames (names : List String) : Registry :=
  names.foldl addSyscall empty

def n3 : Registry :=
  Interop.nativeContracts.foldl (fun r (hash, name) => r.addContract hash name)
    (ofNames Interop.services)

def syscallName? (r : Registry) (hash : Nat) : Option String :=
  r.syscalls.lookup hash

def contractName? (r : Registry) (hash : Hash160) : Option String :=
  r.contracts.lookup hash.render

end Registry

end NeoScript
