import Mathlib.Data.List.Induction
import NeoScript.Contract
import NeoScript.Proofs.Relocation.AddressMap

/-!
# Moving — the same contract with other addresses

* `Manifest.moved`, `DebugInfo.moved` — companions whose addresses a function moves;
* `eraseDups_map_eraseDups`, `DebugInfo.moved_moved` — points that become equal are kept once,
  however many moves it takes until they are;
* `Contract.Moved` — a contract that differs from another one in its script and in moved addresses
  only;
* `Contract.moved_of_rebuild` — a rebuilt contract does.
-/

namespace NeoScript

/-! ## Moved companions -/

def MethodEntry.moved (move : Nat → Nat) (m : MethodEntry) : MethodEntry :=
  { m with offset := move m.offset }

def Manifest.moved (move : Nat → Nat) (m : Manifest) : Manifest :=
  { m with abi := { m.abi with methods := m.abi.methods.map (MethodEntry.moved move) } }

def SequencePoint.moved (move : Nat → Nat) (p : SequencePoint) : SequencePoint :=
  { p with address := move p.address }

/-- The method with every address moved; of points that are equal then, the first stays. -/
def DebugMethod.moved (move : Nat → Nat) (m : DebugMethod) : DebugMethod :=
  { m with
    range := ⟨move m.range.first, move m.range.last⟩
    points := (m.points.map (SequencePoint.moved move)).eraseDups }

def DebugInfo.moved (move : Nat → Nat) (info : DebugInfo) : DebugInfo :=
  { info with methods := info.methods.map (DebugMethod.moved move) }

/-! ## One move after the other -/

section EraseDups

variable {α β : Type} [BEq α] [LawfulBEq α] [BEq β] [LawfulBEq β]

/-- Repetitions are dropped behind the first occurrence. -/
theorem eraseDups_concat (xs : List α) (x : α) [Decidable (x ∈ xs)] :
    (xs ++ [x]).eraseDups = if x ∈ xs then xs.eraseDups else xs.eraseDups ++ [x] := by
  rw [List.eraseDups_append]
  split <;> simp_all [List.removeAll, List.eraseDups_cons]

/-- Repetitions that are erased before a function is applied would be erased behind it. -/
theorem eraseDups_map_eraseDups (f : α → β) (xs : List α) :
    (xs.eraseDups.map f).eraseDups = (xs.map f).eraseDups := by
  classical
  -- The last item decides only whether it is itself kept, so the list is taken apart from behind.
  induction xs using List.reverseRecOn with
  | nil => rfl
  | append_singleton xs x ih =>
      rw [eraseDups_concat, List.map_append, List.map_singleton, eraseDups_concat (xs.map f), ← ih]
      split
      · rename_i hmem
        rw [if_pos (List.mem_map_of_mem hmem)]
      · rw [List.map_append, List.map_singleton, eraseDups_concat]
        simp only [List.mem_map, List.mem_eraseDups]

end EraseDups

/-- Moving twice is moving once. -/
theorem Manifest.moved_moved (first next : Nat → Nat) (m : Manifest) :
    (m.moved first).moved next = m.moved (next ∘ first) := by
  simp only [moved, List.map_map]
  rfl

/-- Moving twice is moving once, also where points become equal on the way. -/
theorem DebugMethod.moved_moved (first next : Nat → Nat) (m : DebugMethod) :
    (m.moved first).moved next = m.moved (next ∘ first) := by
  simp only [moved, eraseDups_map_eraseDups, List.map_map]
  rfl

/-- Two moves are one, also where points become equal by the second only. -/
theorem DebugInfo.moved_moved (first next : Nat → Nat) (info : DebugInfo) :
    (info.moved first).moved next = info.moved (next ∘ first) := by
  simp only [moved, List.map_map]
  congr 2
  funext m
  exact m.moved_moved first next

/-! ## Contracts -/

/-- A contract that differs from another one in its script, its checksum and moved addresses
only. -/
structure Contract.Moved (move : Nat → Nat) (c c' : Contract) : Prop where
  compiler : c'.nef.compiler = c.nef.compiler
  source : c'.nef.source = c.nef.source
  tokens : c'.nef.tokens = c.nef.tokens
  manifest : c'.manifest = c.manifest.moved move
  debug : c'.debug = c.debug.map (DebugInfo.moved move)

theorem Contract.Moved.trans {first next : Nat → Nat} {c c' c'' : Contract} (h : c.Moved first c')
    (h' : c'.Moved next c'') : c.Moved (next ∘ first) c'' := by
  refine ⟨h'.compiler.trans h.compiler, h'.source.trans h.source, h'.tokens.trans h.tokens, ?_, ?_⟩
  · rw [h'.manifest, h.manifest, Manifest.moved_moved]
  · rw [h'.debug, h.debug, Option.map_map]
    congr 1
    funext info
    exact info.moved_moved first next

/-! ## Rebuilt contracts -/

/-- What is done to every item of a list, where each succeeds with a value of a function. -/
theorem eq_map_of_mapM {α β ε : Type} {f : α → Except ε β} {g : α → β}
    (hf : ∀ x y, f x = .ok y → y = g x)
    {xs : List α} {ys : List β} (h : xs.mapM f = .ok ys) : ys = xs.map g := by
  have heq := (Sequencing.mapM_eq_ok.1 h).imp fun x y hxy => (hf x y hxy).symm
  simpa using (Sequencing.map_eq_of_forall₂ (f := g) (g := id) heq).symm

namespace Contract

variable {m : AddressMap}

/-- A manifest that could be moved has every offset at its target. -/
theorem eq_moved_of_moveManifest {manifest manifest' : Manifest}
    (h : moveManifest m manifest = .ok manifest') : manifest' = manifest.moved m.target := by
  obtain ⟨methods, hmethods, heq⟩ := Sequencing.bind_eq_ok.1 h
  cases heq
  have hmethod : ∀ entry entry', moveMethod m entry = .ok entry' →
      entry' = entry.moved m.target := by
    intro entry entry' hmove
    obtain ⟨offset, hoffset, heq⟩ := Sequencing.bind_eq_ok.1 hmove
    cases heq
    rw [MethodEntry.moved, AddressMap.target_of_resolve hoffset]
  rw [eq_map_of_mapM hmethod hmethods, Manifest.moved]

/-- A method that could be moved has every address at its target. -/
theorem eq_moved_of_mapMethod {method method' : DebugMethod}
    (h : DebugInfo.mapMethod m.resolve method = .ok method') : method' = method.moved m.target := by
  obtain ⟨first, hfirst, h⟩ := Sequencing.bind_eq_ok.1 h
  obtain ⟨last, hlast, h⟩ := Sequencing.bind_eq_ok.1 h
  obtain ⟨points, hpoints, heq⟩ := Sequencing.bind_eq_ok.1 h
  cases heq
  have hpoint : ∀ p p' : SequencePoint, (do return { p with address := ← m.resolve p.address }) =
      Except.ok p' →
      p' = p.moved m.target := by
    intro p p' hmove
    obtain ⟨address, haddress, heq⟩ := Sequencing.bind_eq_ok.1 hmove
    cases heq
    rw [SequencePoint.moved, AddressMap.target_of_resolve haddress]
  rw [DebugMethod.moved, AddressMap.target_of_resolve hfirst, AddressMap.target_of_resolve hlast,
    eq_map_of_mapM hpoint hpoints]

/-- So does debug information, if there is any. -/
theorem eq_moved_of_moveDebug {debug debug' : Option DebugInfo}
    (h : moveDebug m debug = .ok debug') : debug' = debug.map (DebugInfo.moved m.target) := by
  cases debug with
  | none =>
      cases h
      rfl
  | some info =>
      obtain ⟨info', hinfo, rfl⟩ := Sequencing.map_eq_ok.1 h
      obtain ⟨methods, hmethods, heq⟩ := Sequencing.bind_eq_ok.1 hinfo
      cases heq
      rw [Option.map_some, DebugInfo.moved, eq_map_of_mapM (fun _ _ =>
        eq_moved_of_mapMethod) hmethods]

/-- A rebuilt contract differs in its script and in moved addresses only. -/
theorem moved_of_rebuild {c c' : Contract} {r : Relocation} (h : c.rebuild r = .ok c') :
    c.Moved r.addressMap.target c' := by
  obtain ⟨script, -, h⟩ := Sequencing.bind_eq_ok.1 h
  obtain ⟨nef, hnef, h⟩ := Sequencing.bind_eq_ok.1 h
  obtain ⟨manifest, hmanifest, h⟩ := Sequencing.bind_eq_ok.1 h
  obtain ⟨debug, hdebug, heq⟩ := Sequencing.bind_eq_ok.1 h
  cases heq
  obtain ⟨checksum, -, hsealed⟩ := Sequencing.bind_eq_ok.1 hnef
  cases hsealed
  exact ⟨rfl, rfl, rfl, eq_moved_of_moveManifest hmanifest, eq_moved_of_moveDebug hdebug⟩

end Contract

end NeoScript
