import NeoScript.Proofs.Optimizer.Totality
import NeoScript.Proofs.Revision.Cost

/-!
# Cost — an optimization never costs more

* `Transferred.cheaper` — relocation keeps numbers and prices of instructions;
* `Contract.Checked.measured` — what is measured of a contract;
* `Pass.Reaches.unchanged_or_cheaper` — strategies leave a contract as it is, or make it cheaper;
* `optimize_cheaper` — an optimization lowers the fee and the number of instructions exactly if a
  strategy changed something.
-/

namespace NeoScript

/-! ## Relocation -/

/-- The new instructions of a link cost what its segment asks for. -/
theorem Linked.cost_news {φ : Nat → Nat → Prop} {l : Link} (h : Linked φ l) :
    l.news.length = l.1.news.length ∧ totalPrice l.news = totalPrice l.1.news := by
  cases h with
  | @kept entry ins h =>
      have hprice : ins.op.price = entry.2.op.price := by
        rw [← Opcode.price_toLong, ← h.op, Opcode.price_toLong]
      simp [Link.news, Segment.news, hprice]
  | replaced h =>
      refine ⟨h.length_eq.symm, ?_⟩
      rw [totalPrice_eq_sum, totalPrice_eq_sum]
      exact congrArg List.sum (Sequencing.map_eq_of_forall₂
        (h.imp fun _ _ heq => by rw [heq.1])).symm

namespace Transferred

variable {script : Script} {links : List Link} {xs : List Instruction}

/-- The placed instructions cost what the new ones of the segments do. -/
theorem cost_news (h : Transferred script links xs) :
    xs.length = ((links.map Prod.fst).flatMap Segment.news).length ∧
      totalPrice xs = totalPrice ((links.map Prod.fst).flatMap Segment.news) := by
  -- Where links lead does not matter here, and the relation would change along the induction.
  have hlinked := h.linked
  rw [← h.news]
  generalize Lands links = φ at hlinked
  clear h
  induction links with
  | nil => exact ⟨rfl, rfl⟩
  | cons l links ih =>
      rw [List.forall_mem_cons] at hlinked
      obtain ⟨hlength, hprice⟩ := ih hlinked.2
      obtain ⟨hlength', hprice'⟩ := hlinked.1.cost_news
      simp only [List.flatMap_cons, List.map_cons, List.length_append, totalPrice_append]
      omega

/-- Relocation keeps numbers and prices of instructions. -/
theorem cheaper (h : Transferred script links xs)
    (hcheaper : Cheaper ((links.map Prod.fst).flatMap Segment.news)
      (((links.map Prod.fst).flatMap Segment.olds).map (·.2))) :
    Cheaper xs script.instructions.toList := by
  have holds : ((links.map Prod.fst).flatMap Segment.olds).map (·.2) =
      script.instructions.toList := by
    rw [← h.olds, List.flatMap_map, List.map_flatMap]
    rfl
  obtain ⟨hlength, hprice⟩ := h.cost_news
  rw [holds] at hcheaper
  exact ⟨hlength ▸ hcheaper.length, hprice ▸ hcheaper.price⟩

end Transferred

/-! ## Measurements -/

theorem foldl_price (xs : List Instruction) (start : Nat) :
    xs.foldl (fun fee ins => fee + ins.op.price) start = start + totalPrice xs := by
  induction xs generalizing start with
  | nil => rfl
  | cons ins xs ih => rw [List.foldl_cons, ih, totalPrice_cons, Nat.add_assoc]

/-- The fee and the number of instructions of a contract are those of its script. -/
theorem Contract.Checked.measured {c : Contract} {script : Script} (h : c.Checked script)
    {m : Metrics}
    (hm : c.metrics = .ok m) : m.instructionCount = script.instructions.toList.length ∧
      m.staticFee = totalPrice script.instructions.toList := by
  obtain ⟨g, groups, hg, hdescribes⟩ := h.exists_graph
  have hmetrics := Sequencing.bind_eq_ok.2 ⟨g, hg, hdescribes.metrics_eq h.instructions_ne_nil⟩
  cases Except.ok.inj (hm.symm.trans hmetrics)
  exact ⟨rfl, (foldl_price _ 0).trans (Nat.zero_add _)⟩

/-! ## Passes -/

namespace Pass

variable {strategies : List Strategy} {c : Contract} {script : Script}

/-- Strategies leave a contract as it is, or make it cheaper. -/
theorem Reaches.unchanged_or_cheaper (hc : c.Checked script) {p : Pass}
    (h : Reaches strategies c p) :
    ∃ script', p.contract.Checked script' ∧ (p.runs = [] ∧ p.contract = c ∧ script' = script ∨
      p.runs ≠ [] ∧ Cheaper script'.instructions.toList script.instructions.toList) := by
  induction h with
  | start => exact ⟨script, hc, .inl ⟨rfl, rfl, rfl⟩⟩
  | @step p p' s _ _ hstep ih =>
      obtain ⟨script', hp, ih⟩ := ih
      obtain ⟨g, groups, parts, counts, -, hallows, hstepped⟩ := step_stepped hp s
      rw [hstep] at hstepped
      cases hstepped with
      | unchanged => exact ⟨script', hp, ih⟩
      | rebuilt hcounts hrebuilt hparts =>
          have hcheaper :=
            hrebuilt.transferred.cheaper (hparts ▸ Strategy.cheaper_of_allows hallows hcounts)
          refine ⟨_, hrebuilt.checked, .inr ⟨by simp, ?_⟩⟩
          rcases ih with ⟨-, -, rfl⟩ | ⟨-, hbefore⟩
          · exact hcheaper
          · exact hcheaper.trans hbefore

end Pass

open Optimizer

/-- An optimization never costs more, and it costs less exactly if a strategy changed something. -/
theorem optimize_cheaper (config : Config) (c : Contract) (result : Optimization)
    (h : optimize config c = .ok result) :
    result.report.feeAfter ≤ result.report.feeBefore ∧
    result.report.instructionsAfter ≤ result.report.instructionsBefore ∧
    (result.report.feeAfter < result.report.feeBefore ↔ result.report.runs ≠ []) ∧
    (result.report.instructionsAfter < result.report.instructionsBefore ↔ result.report.runs ≠ []) ∧
    (result.report.runs = [] → result.contract.nef.script = c.nef.script) := by
  obtain ⟨c₀, done, haccept, haddresses, hpasses, -, hreturns⟩ := optimize_eq_ok h
  obtain ⟨before, after, hbefore, hafter, hcompares⟩ := hreturns.compares
  obtain ⟨script, hchecked⟩ := checked_of_accept haccept haddresses
  obtain ⟨script', hdone, hcost⟩ :=
    (reaches_of_passes hchecked hpasses).unchanged_or_cheaper hchecked
  obtain ⟨hcount, hfee⟩ := hchecked.measured hbefore
  obtain ⟨hcount', hfee'⟩ := hdone.measured hafter
  rw [hreturns.contract, hreturns.runs, hcompares.feeAfter, hcompares.feeBefore,
    hcompares.instructionsAfter, hcompares.instructionsBefore, hcount, hfee, hcount', hfee']
  rcases hcost with ⟨hruns, hcontract, rfl⟩ | ⟨hruns, hcheaper⟩
  · have hscript : done.contract.nef.script = c.nef.script := by
      rw [show done.contract = c₀ from hcontract, (accept_eq_ok haccept).2.1]
    have hnone : ¬ done.runs ≠ [] := not_not_intro hruns
    exact ⟨Nat.le_refl _, Nat.le_refl _, iff_of_false (Nat.lt_irrefl _) hnone,
      iff_of_false (Nat.lt_irrefl _) hnone, fun _ => hscript⟩
  · exact ⟨Nat.le_of_lt hcheaper.price, Nat.le_of_lt hcheaper.length,
      iff_of_true hcheaper.price hruns,
      iff_of_true hcheaper.length hruns, fun hnone => absurd hnone hruns⟩

/-- A sum, and an array whose three elements are stored by index. -/
def Samples.storesScript : Code :=
  #[0x11, 0x12, 0x9E, 0x13, 0xC3, 0x4A, 0x10, 0x15, 0xD0, 0x4A, 0x11, 0x16, 0xD0, 0x4A, 0x12,
    0x17, 0xD0, 0x40]

/-- The sum is folded and the array is packed; each saves some of the fee. -/
theorem optimize_stores_cheaper : ∃ c result,
    Samples.contract Samples.storesScript [("main", ⟨0, 17⟩)] = .ok c ∧
    optimize .default c = .ok result ∧ result.report.feeBefore = 25111 ∧
      result.report.feeAfter = 2053 ∧
    result.report.runs ≠ [] ∧
    result.report.instructionsAfter < result.report.instructionsBefore := by
  have hcompute : (do
      let c ← Samples.contract Samples.storesScript [("main", ⟨0, 17⟩)]
      let result ← optimize .default c
      return (result.report.feeBefore, result.report.feeAfter)) = .ok (25111, 2053) := by
    decide +kernel
  obtain ⟨c, hc, hcompute⟩ := Sequencing.bind_eq_ok.1 hcompute
  obtain ⟨result, hresult, hcompute⟩ := Sequencing.bind_eq_ok.1 hcompute
  obtain ⟨hbefore, hafter⟩ := Prod.mk.inj (Except.ok.inj hcompute)
  obtain ⟨-, -, hfee, hcount, -⟩ := optimize_cheaper .default c result hresult
  have hruns : result.report.runs ≠ [] := hfee.1 (by omega)
  exact ⟨c, result, hc, hresult, hbefore, hafter, hruns, hcount.2 hruns⟩

end NeoScript
