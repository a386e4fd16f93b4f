import ScreenedExpr.Proofs.Parser.Lockstep
import ScreenedExpr.Sandbox

/-!
# Limits only refuse

Under limits that allow no less, a text has the same verdict, unless it was refused for a
limit: the same tree, or the same reason to refuse it down to the place of the error. For
the parser this is the lockstep of two readings, and the lexer has no limits.

* `RejectReason.isLimit` — the reasons that are limits;
* `Expr.ofText_eq_of_le`, `Sandbox.check_eq_of_le`, `Sandbox.screen_eq_of_le` — one verdict, as
  far as no limit is met;
* `Sandbox.screen_of_le` — both verdicts.
-/

namespace ScreenedExpr

/-- The reason is that a limit was met. -/
def RejectReason.isLimit : RejectReason → Bool
  | tooLong _ => true
  | syntactic error => error.isLimit
  | _ => false

/-- **Reading a text** under limits that allow more. -/
theorem Expr.ofText_eq_of_le {limits limits' : Limits} {text : String}
    (hdepth : limits.depth ≤ limits'.depth) (hheight : limits.height ≤ limits'.height)
    (h : ∀ error, Expr.ofText limits text = .error (.syntactic error) → error.isLimit = false) :
    Expr.ofText limits' text = Expr.ofText limits text := by
  rw [Expr.ofText] at h ⊢
  rw [Expr.ofText]
  cases htokens : tokenize text with
  | error => rfl
  | ok tokens =>
    rw [htokens] at h
    have hread : Expr.ofTokens limits' tokens = Expr.ofTokens limits tokens := by
      apply Parser.ofTokens_eq_of_le hdepth hheight
      intro error herror
      exact h error (by simp [herror, Except.mapError])
    simp only [hread]

namespace Sandbox

variable {sandbox sandbox' : Sandbox} {text : String}

/-- What is refused before any token is read, is refused so by a sandbox that allows longer
texts, unless it was too long. -/
theorem textual?_eq_of_le (hlength : sandbox.limits.length ≤ sandbox'.limits.length)
    (h : ∀ reason, sandbox.textual? text = some reason → reason.isLimit = false) :
    sandbox'.textual? text = sandbox.textual? text := by
  rw [textual?] at h ⊢
  rw [textual?]
  split at h
  · next hblank => rw [if_pos hblank, if_pos hblank]
  · next hblank =>
    split at h
    · cases h _ rfl
    · next hshort =>
      rw [if_neg hblank, if_neg hblank, if_neg hshort, if_neg (by omega)]

/-- **Checking a text** under limits that allow more. -/
theorem check_eq_of_le (hlength : sandbox.limits.length ≤ sandbox'.limits.length)
    (hdepth : sandbox.limits.depth ≤ sandbox'.limits.depth)
    (hheight : sandbox.limits.height ≤ sandbox'.limits.height)
    (h : ∀ reason, sandbox.check text = .error reason → reason.isLimit = false) :
    sandbox'.check text = sandbox.check text := by
  rw [check] at h ⊢
  rw [check]
  have htextual : sandbox'.textual? text = sandbox.textual? text := by
    apply textual?_eq_of_le hlength
    intro reason hreason
    exact h reason (by rw [hreason])
  rw [htextual]
  cases hnone : sandbox.textual? text with
  | some reason => rfl
  | none =>
    rw [hnone] at h
    have hread : Expr.ofText sandbox'.limits text = Expr.ofText sandbox.limits text := by
      apply Expr.ofText_eq_of_le hdepth hheight
      intro error herror
      exact h (.syntactic error) (by rw [herror]; rfl)
    dsimp only
    rw [hread]

/-- **Screening a text** under limits that allow more. -/
theorem screen_eq_of_le (hlength : sandbox.limits.length ≤ sandbox'.limits.length)
    (hdepth : sandbox.limits.depth ≤ sandbox'.limits.depth)
    (hheight : sandbox.limits.height ≤ sandbox'.limits.height)
    (h : ∀ rejection, sandbox.screen text = .error rejection →
      rejection.reason.isLimit = false) :
    sandbox'.screen text = sandbox.screen text := by
  have hcheck : sandbox'.check text = sandbox.check text := by
    apply check_eq_of_le hlength hdepth hheight
    intro reason hreason
    exact h ⟨text, reason⟩ (by rw [screen, hreason]; rfl)
  rw [screen, screen, hcheck]

/-- **Limits only refuse.** What a sandbox accepts, one whose limits allow no less accepts as
the same tree; and what it refuses for another reason than a limit, that one refuses for the
very same reason. -/
theorem screen_of_le (sandbox sandbox' : Sandbox) (text : String)
    (hlength : sandbox.limits.length ≤ sandbox'.limits.length)
    (hdepth : sandbox.limits.depth ≤ sandbox'.limits.depth)
    (hheight : sandbox.limits.height ≤ sandbox'.limits.height) :
    (∀ tree, sandbox.screen text = .ok tree → sandbox'.screen text = .ok tree) ∧
      ∀ rejection, sandbox.screen text = .error rejection →
        rejection.reason.isLimit = false → sandbox'.screen text = .error rejection := by
  refine ⟨?_, ?_⟩
  · intro tree h
    rw [screen_eq_of_le hlength hdepth hheight, h]
    intro rejection hrefused
    cases h.symm.trans hrefused
  · intro rejection h hreason
    rw [screen_eq_of_le hlength hdepth hheight, h]
    intro found hfound
    cases h.symm.trans hfound
    exact hreason

/-- A tree of height three in seven characters at depth two, and an error behind another one:
with more room neither the tree nor the error changes. -/
theorem screen_tight :
    let tight : Sandbox := ⟨⟨7, 2, 3⟩⟩
    let roomy : Sandbox := ⟨⟨40, 5, 9⟩⟩
    let tree : Expr := .binary .add (.unary .negate (.identifier "a")) (.identifier "b")
    let refusal : Rejection := ⟨"-a + b)",
      .syntactic (.trailingInput (.mark .rightParen) ⟨6, 7⟩)⟩
    (tight.limits.length ≤ roomy.limits.length ∧ tight.limits.depth ≤ roomy.limits.depth ∧
      tight.limits.height ≤ roomy.limits.height) ∧
    (tight.screen "-a + b" = .ok tree ∧ roomy.screen "-a + b" = .ok tree) ∧
    tight.screen "-a + b)" = .error refusal ∧ refusal.reason.isLimit = false ∧
      roomy.screen "-a + b)" = .error refusal := by
  intro tight roomy tree refusal
  have haccepted : tight.screen "-a + b" = .ok tree := by decide +kernel
  have hrefused : tight.screen "-a + b)" = .error refusal := by decide +kernel
  refine ⟨⟨by decide, by decide, by decide⟩, ⟨haccepted, ?_⟩, hrefused, rfl, ?_⟩
  · exact (screen_of_le tight roomy "-a + b" (by decide) (by decide) (by decide)).1 tree
      haccepted
  · exact (screen_of_le tight roomy "-a + b)" (by decide) (by decide) (by decide)).2 refusal
      hrefused rfl

end Sandbox

end ScreenedExpr
