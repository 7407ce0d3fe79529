import NeoScript.Proofs.FlowGraph.Partition
import NeoScript.Proofs.Machine.Control

/-!
# Passage — control leaves a block at its last instruction only

Blocks are cut by a table of operations, and the machine follows its own rules.  Both agree:

* `FlowGraph.Describes.next_in_block` — the instruction behind another one of a block is the next
  one there, and only the last may transfer control;
* `FlowGraph.Describes.advance_in_block` — so a machine in a block goes through it instruction by
  instruction;
* `FlowGraph.control_leaves_last` — instructions that leave a block open never transfer control,
  those that end one always do unless they are jumps, and blocks are left at their last instruction.
-/

namespace NeoScript

open Machine (FallsThrough)

namespace FlowGraph

variable {script : Script} {code : Code} {starts : List Nat} {g : FlowGraph}
  {groups : List (List (Instruction × Nat))} {block : Block}

/-- The address of the instruction at a position of a block. -/
def addressIn (g : FlowGraph) (block : Block) (position : Nat) : Option Nat :=
  (block.ids[position]?).bind g.arena.origin?

namespace Describes

/-- An instruction of a block that is not the last does not end it, and the next one stands behind
it. -/
theorem next_in_block (h : g.Describes script starts groups) (hreading : script.IsReading code)
    (hblock : block ∈ g.blocks) (position : Nat) (hposition : position + 1 < block.ids.length) :
    ∃ ins, decodeAt code ins.pc = .ok ins ∧ ins.op.isBlockEnding = false ∧
      g.addressIn block position = some ins.pc ∧
      g.addressIn block (position + 1) = some (ins.pc + ins.size) := by
  obtain ⟨group, hgroup, -, hids⟩ := h.mem_group hblock
  have hlength : position + 1 < group.length := by simpa [hids] using hposition
  -- The run is cut in front of the two instructions.
  obtain ⟨front, entry, entry', back, rfl, hfront⟩ : ∃ front entry entry' back,
      group = front ++ entry :: entry' :: back ∧ front.length = position := by
    refine ⟨group.take position, group[position], group[position + 1],
      group.drop (position + 2), ?_, ?_⟩
    · rw [← List.drop_eq_getElem_cons hlength, ← List.drop_eq_getElem_cons, List.take_append_drop]
    · rw [List.length_take]
      omega
  obtain ⟨before, after, hsplit⟩ := List.append_of_mem hgroup
  have hflatten : groups.flatten =
      (before.flatten ++ front) ++ entry :: entry' :: (back ++ after.flatten) := by
    simp [hsplit]
  have haddress : ∀ other ∈ front ++ entry :: entry' :: back,
      script.instructions[other.2]? = some other.1 ∧ g.arena.origin? other.2 = some other.1.pc := by
    intro other hother
    have hid := h.cut.mem_iff.1 ⟨_, hgroup, hother⟩
    exact ⟨hid, by rw [h.origin?_arena, hid, Option.map_some]⟩
  obtain ⟨hid, horigin⟩ := haddress entry (by simp)
  refine ⟨entry.1, ?_, h.cut.isBlockEnding_eq_false hreading hgroup, ?_, ?_⟩
  · exact hreading.decoded _ (Array.mem_toList_iff.2 (Array.mem_of_getElem? hid))
  · simp [addressIn, hids, ← hfront, horigin]
  · have hnext : g.arena.origin? entry'.2 = some (entry.1.pc + entry.1.size) := by
      rw [(haddress entry' (by simp)).2, h.cut.pc_eq_next hreading hflatten, Instruction.next]
    simp [addressIn, hids, ← hfront, hnext]

/-- A machine that is at an instruction of a block goes through the block, one instruction after the
other. -/
theorem advance_in_block (h : g.Describes script starts groups) (hreading : script.IsReading code)
    (hblock : block ∈ g.blocks) {position count : Nat}
    (hinside : position + count < block.ids.length)
    {m m' : Machine} {address : Nat} (haddress : g.addressIn block position = some address)
    (hat : m.frames.head?.map (·.ip) = some address)
    (hadvance : Machine.advance code count m = .ok m') :
    ∃ address, g.addressIn block (position + count) = some address ∧ FallsThrough address m m' := by
  induction count generalizing position m address with
  | zero =>
      cases hadvance
      exact ⟨address, haddress, .refl hat⟩
  | succ count ih =>
      -- The first step leads to the next position, and the others go on from there.
      obtain ⟨next, hstep, hrest⟩ := Sequencing.bind_eq_ok.1 hadvance
      obtain ⟨ins, hdecode, hstraight, hhere, hbehind⟩ :=
        h.next_in_block hreading hblock position (by omega)
      cases haddress.symm.trans hhere
      obtain ⟨frame, hframe, hip⟩ := Option.map_eq_some_iff.1 hat
      obtain ⟨outer, hframes⟩ := List.head?_eq_some_iff.1 hframe
      have hfalls := Machine.step_fallsThrough hframes (hip ▸ hdecode) hstraight hstep
      rw [hip] at hfalls
      have hinside' : position + 1 + count < block.ids.length := by omega
      obtain ⟨last, hlast, hrun⟩ := ih hinside' hbehind hfalls.ip hrest
      rw [Nat.add_right_comm] at hlast
      exact ⟨last, hlast, hfalls.trans hrun⟩

end Describes

/-- Which operations end blocks agrees with what the machine does.  A step at an instruction that
leaves a block open goes on behind it and changes nothing else about control; a step at one that
ends a block does change control, unless it is a jump.  So a machine at an instruction of a block
goes through the block without leaving it, until it is at the last instruction. -/
theorem control_leaves_last (code : Code) :
    (∀ (m m' : Machine) (frame : Frame) (outer : List Frame) (ins : Instruction),
      m.frames = frame :: outer → decodeAt code frame.ip = .ok ins → Machine.step code m = .ok m' →
        (ins.op.isBlockEnding = false → FallsThrough (frame.ip + ins.size) m m') ∧
        (ins.op.isBlockEnding = true → FallsThrough (frame.ip + ins.size) m m' →
          ∃ condition reach, ins.op = .jump condition reach)) ∧
    ∀ (script : Script) (starts : List Nat) (g : FlowGraph),
      Script.decode code = .ok script → build script starts = .ok g →
      ∀ block ∈ g.blocks, ∀ (position count : Nat) (m m' : Machine) (frame : Frame)
        (outer : List Frame), position + count < block.ids.length → m.frames = frame :: outer →
        g.addressIn block position = some frame.ip → Machine.advance code count m = .ok m' →
          ∃ address, g.addressIn block (position + count) = some address ∧
            FallsThrough address m m' := by
  constructor
  · intro m m' frame outer ins hframes hdecode hstep
    exact ⟨fun hstraight => Machine.step_fallsThrough hframes hdecode hstraight hstep,
      fun hends hfalls => Machine.isJump_of_fallsThrough hframes hdecode hends hstep hfalls⟩
  · intro script starts g hdecode hbuild block hblock position count m m' frame outer
      hinside hframes
      haddress hadvance
    have hreading := Script.decode_eq_ok_iff.1 hdecode
    obtain ⟨-, -, groups, h⟩ := describes_of_build hreading hbuild
    refine h.advance_in_block hreading hblock hinside haddress ?_ hadvance
    rw [hframes, List.head?_cons, Option.map_some]

end FlowGraph

/-- A block that makes slots, adds two to its argument and stores the sum in front of its return. -/
def Samples.slotBlock : Code :=
  #[0x57, 0x01, 0x01, 0x78, 0x12, 0x9E, 0x70, 0x40]

/-- A machine at the start of the block, called from inside it, in a try block and with an exception
pending. -/
def Samples.slotMachine : Machine where
  stack := #[.int 5]
  frames := [⟨0, none, none, [⟨some 7, none, none, .handling⟩]⟩, ⟨4, none, none, []⟩]
  statics := none
  pending := some .null
  heap := .empty

/-- The first step makes the slots, and five steps lead to the return, whatever the caller and its
exception. -/
theorem FlowGraph.control_leaves_last_slots : ∃ script g block ins m₁ m',
    Script.decode Samples.slotBlock = .ok script ∧ build script [] = .ok g ∧ block ∈ g.blocks ∧
    decodeAt Samples.slotBlock 0 = .ok ins ∧ ins.op.isBlockEnding = false ∧
    Machine.step Samples.slotBlock Samples.slotMachine = .ok m₁ ∧
    FallsThrough (0 + ins.size) Samples.slotMachine m₁ ∧
    0 + 5 < block.ids.length ∧ g.addressIn block 0 = some 0 ∧
    Machine.advance Samples.slotBlock 5 Samples.slotMachine = .ok m' ∧
    ∃ address, g.addressIn block (0 + 5) = some address ∧
      FallsThrough address Samples.slotMachine m' := by
  obtain ⟨script, hdecode⟩ : ∃ script, Script.decode Samples.slotBlock = .ok script := ⟨_, rfl⟩
  have hcompute : (do
      let script ← Script.decode Samples.slotBlock
      let g ← build script []
      return g.blocks.map fun block : Block => (block.ids.length, g.addressIn block 0)) =
        .ok [(6, some 0)] := by
    decide +kernel
  rw [hdecode, Sequencing.ok_bind] at hcompute
  obtain ⟨g, hbuild, hblocks⟩ := Sequencing.bind_eq_ok.1 hcompute
  obtain ⟨block, hblocks, hviews⟩ := List.map_eq_singleton_iff.1 (Except.ok.inj hblocks)
  obtain ⟨hlength, haddress⟩ := Prod.mk.inj hviews
  have hblock : block ∈ g.blocks := by simp [hblocks]
  obtain ⟨m₁, hstep⟩ : ∃ m₁, Machine.step Samples.slotBlock Samples.slotMachine = .ok m₁ :=
    ⟨_, rfl⟩
  obtain ⟨m', hadvance⟩ : ∃ m', Machine.advance Samples.slotBlock 5 Samples.slotMachine = .ok m' :=
    ⟨_, rfl⟩
  have hleaves := control_leaves_last Samples.slotBlock
  exact ⟨script, g, block, ⟨0, .initSlots, [1, 1]⟩, m₁, m', hdecode, hbuild, hblock, rfl,
    rfl, hstep, (hleaves.1 _ _ _ _ _ rfl rfl hstep).1 rfl, by omega, haddress, hadvance,
    hleaves.2 script [] g hdecode hbuild block hblock 0 5 _ m' _ _ (by omega) rfl haddress hadvance⟩

end NeoScript
