import Mathlib.Data.Prod.Lex
import Mathlib.Data.String.Basic
import SchemaLang.Compile.Diagnostic

/-!
# The order of a report

A report is in order and has each diagnostic once, so it depends only on which diagnostics have been
made, not on the order in which they were made or how often.

* `Diagnostic.pairwise_report`: what is reported is in order.
* `Diagnostic.report_congr`: the same diagnostics give the same report.
-/

namespace SchemaLang.Diagnostic

/-- What diagnostics are ordered by. -/
def rank (d : Diagnostic) : String ×ₗ ℕ ×ₗ String :=
  toLex (d.position.file, toLex (d.position.line, d.message))

theorem before_iff {d e : Diagnostic} : d.before e = true ↔ d.rank < e.rank := by
  rw [before, rank, rank, Prod.Lex.toLex_lt_toLex, Prod.Lex.toLex_lt_toLex]
  by_cases hf : d.position.file = e.position.file
  · by_cases hl : d.position.line = e.position.line
    · simp [hf, hl]
    · simp [hf, hl]
  · simp [hf]

theorem rank_injective {d e : Diagnostic} (h : d.rank = e.rank) : d = e := by
  obtain ⟨⟨file, line⟩, message⟩ := d
  obtain ⟨⟨file', line'⟩, message'⟩ := e
  obtain ⟨rfl, h⟩ := Prod.mk.inj (toLex_inj.1 h)
  obtain ⟨rfl, rfl⟩ := Prod.mk.inj (toLex_inj.1 h)
  rfl

theorem pairwise_insert {d : Diagnostic} {l : List Diagnostic}
    (h : l.Pairwise fun d e => d.rank < e.rank) :
    (insert d l).Pairwise fun d e => d.rank < e.rank := by
  induction l with
  | nil => exact List.pairwise_singleton _ _
  | cons e rest ih =>
    have hc := List.pairwise_cons.1 h
    rw [insert]
    split
    · exact h
    · next hne =>
      split
      · next hb =>
        have hlt := before_iff.1 hb
        refine List.pairwise_cons.2 ⟨fun f hf => ?_, h⟩
        rcases List.mem_cons.1 hf with rfl | hf
        · exact hlt
        · exact hlt.trans (hc.1 f hf)
      · next hb =>
        have hlt : e.rank < d.rank :=
          lt_of_le_of_ne (not_lt.1 (mt before_iff.2 hb)) fun he => hne (rank_injective he.symm)
        refine List.pairwise_cons.2 ⟨fun f hf => ?_, ih hc.2⟩
        rcases mem_insert.1 hf with rfl | hf
        · exact hlt
        · exact hc.1 f hf

theorem pairwise_report (log : List Diagnostic) :
    (report log).Pairwise fun d e => d.rank < e.rank := by
  induction log with
  | nil => exact .nil
  | cons d log ih => exact pairwise_insert ih

theorem report_congr {log log' : List Diagnostic} (h : ∀ d, d ∈ log ↔ d ∈ log') :
    report log = report log' := by
  have hnodup : ∀ log, (report log).Nodup := fun log =>
    (pairwise_report log).imp fun hlt => ne_of_apply_ne rank hlt.ne
  have hperm : (report log).Perm (report log') :=
    (List.perm_ext_iff_of_nodup (hnodup log) (hnodup log')).2 fun d => by
      rw [mem_report, mem_report, h]
  exact hperm.eq_of_pairwise (fun d e _ _ hd he => absurd (hd.trans he) (lt_irrefl _))
    (pairwise_report log) (pairwise_report log')

end SchemaLang.Diagnostic
