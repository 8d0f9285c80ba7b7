import SchemaLang.Proofs.Compile

/-!
# Sessions

One compilation may read many inputs, as texts or as lines, and be finished in between.

* `Compilation.after_induct`: what every line and the linter keep holds after all requests.
-/

namespace SchemaLang

/-- What may be asked of a compilation. -/
inductive Request
  | text (file text : String)
  | lines (file : String) (lines : List (List Char))
  | finish

namespace Compilation

def serve (c : Compilation) : Request → Compilation
  | .text file text => c.read file text
  | .lines file lines => c.readLines file lines
  | .finish => c.finish

/-- A compilation after all requests, the first one made of a new one. -/
def after (requests : List Request) : Compilation := requests.foldl serve {}

/-- A text is read as its lines. -/
theorem serve_induct {P : Compilation → Prop}
    (step : ∀ pos text c k, P c → P (Compile.step pos text c k).1)
    (finish : ∀ c, P c → P c.finish) {c : Compilation} (request : Request) (h : P c) :
    P (c.serve request) := by
  cases request with
  | text file text => exact readLogical_induct step h
  | lines file lines => exact readLogical_induct step h
  | finish => exact finish c h

theorem after_induct {P : Compilation → Prop} (start : P {})
    (step : ∀ pos text c k, P c → P (Compile.step pos text c k).1)
    (finish : ∀ c, P c → P c.finish) (requests : List Request) : P (after requests) := by
  have hfold : ∀ c, P c → P (requests.foldl serve c) := by
    induction requests with
    | nil => exact fun c h => h
    | cons request requests ih =>
      intro c h
      exact ih _ (serve_induct step finish request h)
  exact hfold {} start

end Compilation

end SchemaLang
