import NeoScript.Proofs.Script.Codec
import NeoScript.Proofs.Table

/-!
# Reading — a code and the script that it spells

* `Script.IsReading` — what it means that a script is the reading of a code;
* `Script.decode_eq_ok_iff` — decoding finds the reading, and only that;
* `Script.isReading_of_encode` — the reading of written instructions are these instructions;
* `Script.IsReading.isBoundary_iff`, `Script.IsReading.indexOf?_eq_some_iff` — the index of a
  reading.
-/

namespace NeoScript

/-- The instructions fill the code from its first byte to its last, each is what its bytes spell,
and the index holds their addresses. -/
structure Script.IsReading (script : Script) (code : Code) : Prop where
  placed : Placed 0 script.instructions.toList
  size : totalSize script.instructions.toList = code.size
  decoded : ∀ ins ∈ script.instructions.toList, decodeAt code ins.pc = .ok ins
  indexed : script = Script.ofInstructions script.instructions

/-! ## Decoding -/

/-- An instruction that was read ends inside the code. -/
theorem next_le_of_decodeAt {code : Code} {pc : Nat} {ins : Instruction} (hpc : pc ≤ code.size)
    (h : decodeAt code pc = .ok ins) : pc + ins.size ≤ code.size := by
  obtain ⟨_, hfits, hprefix⟩ := decodeAt_eq_ok_iff.1 h
  have hle := hprefix.length_le
  rw [hfits.length_bytes, List.length_drop, Array.length_toList] at hle
  omega

/-- What is decoded fills the rest of the code without a gap. -/
theorem decodeFrom_eq_ok {code : Code} {fuel pc : Nat} {out result : Array Instruction}
    (hpc : pc ≤ code.size) (hfuel : code.size - pc ≤ fuel)
    (h : decodeFrom code fuel pc out = .ok result) :
    ∃ xs, result.toList = out.toList ++ xs ∧ Placed pc xs ∧ pc + totalSize xs = code.size ∧
      ∀ ins ∈ xs, decodeAt code ins.pc = .ok ins := by
  induction fuel generalizing pc out with
  | zero =>
      cases h
      exact ⟨[], by simp, trivial, by simp only [totalSize_nil]; omega, by simp⟩
  | succ fuel ih =>
      unfold decodeFrom at h
      split at h
      · rename_i hlt
        split at h
        · cases h
        · rename_i ins hins
          -- Every instruction takes a byte at least, so the fuel lasts to the end of the code.
          have hsize := ins.size_pos
          have hnext := next_le_of_decodeAt hpc hins
          obtain ⟨xs, hresult, hplaced, hend, hall⟩ := ih hnext (by omega) h
          have hat := (decodeAt_eq_ok_iff.1 hins).1
          refine ⟨ins :: xs, by simpa using hresult, ⟨hat, hplaced⟩, ?_, ?_⟩
          · simp only [totalSize_cons]
            omega
          · intro other hmem
            rcases List.mem_cons.1 hmem with rfl | hrest
            · rwa [hat]
            · exact hall other hrest
      · cases h
        exact ⟨[], by simp, trivial, by simp only [totalSize_nil]; omega, by simp⟩

/-- Instructions that fill the code without a gap are decoded. -/
theorem decodeFrom_of_placed {code : Code} {fuel pc : Nat} {xs : List Instruction}
    (hplaced : Placed pc xs) (hend : pc + totalSize xs = code.size) (hfuel : xs.length ≤ fuel)
    (hall : ∀ ins ∈ xs, decodeAt code ins.pc = .ok ins) (out : Array Instruction) :
    decodeFrom code fuel pc out = .ok (out ++ xs.toArray) := by
  induction xs generalizing fuel pc out with
  | nil =>
      simp only [totalSize_nil, Nat.add_zero] at hend
      cases fuel with
      | zero => simp [decodeFrom]
      | succ fuel => simp [decodeFrom, hend]
  | cons ins xs ih =>
      cases fuel with
      | zero => simp at hfuel
      | succ fuel =>
          have hsize := ins.size_pos
          obtain ⟨hpc, hrest⟩ := hplaced
          simp only [totalSize_cons] at hend
          have hdecoded : decodeAt code pc = .ok ins := hpc ▸ hall ins List.mem_cons_self
          have hlt : pc < code.size := by omega
          have hlength : xs.length ≤ fuel := by simpa using hfuel
          rw [decodeFrom, if_pos hlt, hdecoded]
          dsimp only
          rw [ih hrest (by omega) hlength (fun other hmem =>
            hall other (List.mem_cons_of_mem _ hmem))]
          simp

namespace Script

variable {script : Script} {code : Code}

/-- Decoding finds the reading of a code, and only that. -/
theorem decode_eq_ok_iff : decode code = .ok script ↔ script.IsReading code := by
  unfold decode
  rw [Sequencing.map_eq_ok]
  constructor
  · rintro ⟨result, hresult, rfl⟩
    obtain ⟨xs, hlist, hplaced, hend, hall⟩ :=
      decodeFrom_eq_ok (Nat.zero_le _) (Nat.le_of_eq (Nat.sub_zero _)) hresult
    have hxs : result.toList = xs := by simpa using hlist
    rw [Nat.zero_add] at hend
    subst hxs
    exact ⟨hplaced, hend, hall, rfl⟩
  · intro h
    refine ⟨script.instructions, ?_, h.indexed.symm⟩
    have hlength := length_le_totalSize script.instructions.toList
    rw [h.size] at hlength
    have hdecoded := decodeFrom_of_placed h.placed (by rw [Nat.zero_add]; exact h.size) hlength
      h.decoded #[]
    simpa using hdecoded

namespace IsReading

/-- The script ends where its code does. -/
theorem length_eq (h : script.IsReading code) : script.length = code.size := by
  have hplaced := h.placed
  have hsize := h.size
  unfold length
  rw [Array.back?_eq_getElem?, ← Array.getElem?_toList, ← Array.length_toList,
    ← List.getLast?_eq_getElem?]
  generalize script.instructions.toList = xs at hplaced hsize
  rcases List.eq_nil_or_concat xs with rfl | ⟨front, last, rfl⟩
  · simpa using hsize
  · rw [List.concat_eq_append] at hplaced hsize ⊢
    rw [Placed.append_iff, Placed.cons_iff] at hplaced
    simp only [List.getLast?_append, List.getLast?_singleton, Option.some_or, totalSize_append,
      totalSize_cons, totalSize_nil] at hsize ⊢
    unfold Instruction.next
    omega

/-- The index holds the position of every address at which an instruction begins. -/
theorem indexOf?_eq_some_iff (h : script.IsReading code) {pc k : Nat} :
    script.indexOf? pc = some k ↔ ∃ ins, script.instructions[k]? = some ins ∧ ins.pc = pc := by
  have hplaces : (Script.ofInstructions script.instructions).indexOf? pc = some k ↔
      ∃ i ins, script.instructions.toList[i]? = some ins ∧ ins.pc = pc ∧ i = k :=
    Table.getElem?_fill_zipIdx Instruction.pc h.placed.nodup_pc fun i => i
  rw [← h.indexed] at hplaces
  rw [hplaces]
  simp

/-- An address is a boundary if an instruction begins there. -/
theorem isBoundary_iff (h : script.IsReading code) {pc : Nat} :
    script.isBoundary pc = true ↔ ∃ ins ∈ script.instructions.toList, ins.pc = pc := by
  have hsome : script.isBoundary pc = (script.indexOf? pc).isSome :=
    Std.TreeMap.contains_eq_isSome_getElem?
  rw [hsome, Option.isSome_iff_exists]
  constructor
  · rintro ⟨k, hk⟩
    obtain ⟨ins, hins, hpc⟩ := h.indexOf?_eq_some_iff.1 hk
    rw [← Array.getElem?_toList] at hins
    exact ⟨ins, List.mem_of_getElem? hins, hpc⟩
  · rintro ⟨ins, hins, hpc⟩
    obtain ⟨k, hk⟩ := List.getElem?_of_mem hins
    rw [Array.getElem?_toList] at hk
    exact ⟨k, h.indexOf?_eq_some_iff.2 ⟨ins, hk, hpc⟩⟩

/-- Behind an instruction another one begins, or the code ends. -/
theorem next_cases (h : script.IsReading code) {ins : Instruction}
    (hmem : ins ∈ script.instructions.toList) :
    script.isBoundary ins.next = true ∨ ins.next = code.size := by
  rcases h.placed.next_cases hmem with hnext | hend
  · exact .inl (h.isBoundary_iff.2 hnext)
  · right
    rw [hend, h.size, Nat.zero_add]

/-- A boundary lies inside the code. -/
theorem lt_of_isBoundary (h : script.IsReading code) {pc : Nat}
    (hpc : script.isBoundary pc = true) : pc < code.size := by
  obtain ⟨ins, hmem, rfl⟩ := h.isBoundary_iff.1 hpc
  have hbounds := h.placed.bounds hmem
  have hpos := ins.size_pos
  rw [h.size] at hbounds
  unfold Instruction.next at hbounds
  omega

/-- Instructions that were read have the form that their operation asks for. -/
theorem fits (h : script.IsReading code) {ins : Instruction}
    (hmem : ins ∈ script.instructions.toList) : ins.Fits :=
  (decodeAt_eq_ok_iff.1 (h.decoded ins hmem)).2.1

end IsReading

end Script

/-! ## Encoding -/

/-- Instructions are written one after the other, if each can be. -/
theorem encode_eq_ok_iff {xs : List Instruction} {code : Code} :
    encode xs = .ok code ↔ (∀ ins ∈ xs, ins.Fits) ∧ code.toList = xs.flatMap (·.bytes) := by
  unfold encode
  rw [Sequencing.map_eq_ok]
  constructor
  · rintro ⟨parts, hparts, rfl⟩
    have hforall := Sequencing.mapM_eq_ok.1 hparts
    clear hparts
    induction hforall with
    | nil => simp
    | cons hone _ ih =>
        obtain ⟨hfits, rfl⟩ := encodeOne_eq_ok_iff.1 hone
        exact ⟨List.forall_mem_cons.2 ⟨hfits, ih.1⟩, by simpa using ih.2⟩
  · rintro ⟨hfits, hcode⟩
    refine ⟨xs.map (·.bytes), Sequencing.mapM_eq_ok.2 ?_, ?_⟩
    · clear hcode
      induction xs with
      | nil => exact .nil
      | cons ins xs ih =>
          rw [List.forall_mem_cons] at hfits
          exact .cons (encodeOne_eq_ok_iff.2 ⟨hfits.1, rfl⟩) (ih hfits.2)
    · rw [← List.flatMap_def, ← hcode, Array.toArray_toList]

theorem length_flatMap_bytes {xs : List Instruction} (hfits : ∀ ins ∈ xs, ins.Fits) :
    (xs.flatMap (·.bytes)).length = totalSize xs := by
  induction xs with
  | nil => rfl
  | cons ins xs ih =>
      rw [List.forall_mem_cons] at hfits
      rw [List.flatMap_cons, List.length_append, hfits.1.length_bytes, ih hfits.2, totalSize_cons]

/-- The reading of written instructions are these instructions. -/
theorem Script.isReading_of_encode {xs : List Instruction} {code : Code} (hplaced : Placed 0 xs)
    (h : encode xs = .ok code) : (Script.ofInstructions xs.toArray).IsReading code := by
  obtain ⟨hfits, hcode⟩ := encode_eq_ok_iff.1 h
  refine ⟨hplaced, ?_, ?_, rfl⟩
  · rw [← Array.length_toList, hcode, length_flatMap_bytes hfits]
    rfl
  · intro ins hmem
    obtain ⟨before, after, hsplit⟩ := List.append_of_mem hmem
    have hsplit' : xs = before ++ ins :: after := hsplit
    have hpc : ins.pc = totalSize before := by
      rw [hsplit', Placed.append_iff, Placed.cons_iff] at hplaced
      omega
    have hbefore : ∀ other ∈ before, other.Fits := by
      intro other hother
      exact hfits other (by simp [hsplit', hother])
    -- The bytes in front of an instruction are as many as its address says.
    refine decodeAt_eq_ok_iff.2 ⟨rfl, hfits ins (by simp [hsplit']), ?_⟩
    rw [hcode, hsplit', List.flatMap_append, hpc, ← length_flatMap_bytes hbefore, List.drop_left,
      List.flatMap_cons]
    exact List.prefix_append _ _

end NeoScript
