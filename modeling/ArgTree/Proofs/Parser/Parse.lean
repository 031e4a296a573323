import ArgTree.Proofs.Parser.Reads
import ArgTree.TokenSequence

namespace ArgTree

open ArgTree.Parser

namespace TokenSequence

variable {s : TokenSequence}

theorem parseOutcome_eq_ok_iff : s.parseOutcome o = .ok v ↔
    ∃ vs, ReadsLevel (nested o.maxDepth) .endOfText none (s.lexemesFrom o.start) vs [] ∧
      v = .ofTopLevel o.unwrapSingleton vs := by
  simp only [← level_yields_iff, parseOutcome]
  cases level (nested o.maxDepth) .endOfText none (s.lexemesFrom o.start)
  case error => simp [bind, Except.bind, Outcome.Yields]
  case ok top =>
    by_cases hr : top.rest = []
    case neg => simp [bind, Except.bind, throw, throwThe, MonadExceptOf.throw, hr]
    case pos => simp [bind, Except.bind, pure, Except.pure, hr, eq_comm]

-- A failure is one to read the top level, or there is something left behind it.
theorem parseOutcome_eq_error_iff : s.parseOutcome o = .error f ↔
    level (nested o.maxDepth) .endOfText none (s.lexemesFrom o.start) = .error f ∨
      ∃ top, level (nested o.maxDepth) .endOfText none (s.lexemesFrom o.start) = .ok top ∧
        top.rest ≠ [] ∧ f = ⟨.delimiterExpected, top.rest⟩ := by
  simp only [parseOutcome]
  cases level (nested o.maxDepth) .endOfText none (s.lexemesFrom o.start)
  case error => simp [bind, Except.bind]
  case ok top =>
    by_cases hr : top.rest = []
    case neg => simp [bind, Except.bind, throw, throwThe, MonadExceptOf.throw, hr, eq_comm]
    case pos => simp [bind, Except.bind, pure, Except.pure, hr]

theorem parse_eq_ok_iff : s.parse o = .ok v ↔
    ∃ vs, ReadsLevel (nested o.maxDepth) .endOfText none (s.lexemesFrom o.start) vs [] ∧
      v = .ofTopLevel o.unwrapSingleton vs := by
  rw [← parseOutcome_eq_ok_iff, parse]
  cases s.parseOutcome o <;> simp [Except.mapError]

theorem parse_eq_error_iff : s.parse o = .error e ↔
    ∃ f, s.parseOutcome o = .error f ∧ s.errorOf f = e := by
  rw [parse]
  cases s.parseOutcome o <;> simp [Except.mapError]

end TokenSequence

-- An expression is read if it is cut into tokens that are read.
theorem parse_eq_ok_iff_exists_ofSource {text : String} : parse text o = .ok v ↔
    ∃ s, TokenSequence.ofSource text = .ok s ∧ s.parse o = .ok v := by
  simp only [parse]
  cases TokenSequence.ofSource text <;> simp [bind, Except.bind]

end ArgTree
