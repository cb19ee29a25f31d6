import Mathlib.Data.List.Basic

/-! # Trees of tokens

A token is made on its own or as the child of another.  To cancel one is to cancel all those
below it, also those that are made later.  A token is named by its path: the numbers of the
children from the root to it.
-/

/-- The tokens below one root, by those that have been cancelled themselves. -/
structure TokenTree where
  cancelled : List (List Nat)
  deriving DecidableEq

namespace TokenTree

def new : TokenTree := ⟨[]⟩

/-- The child of a token with this number. -/
def child (token : List Nat) (n : Nat) : List Nat := token ++ [n]

def cancel (t : TokenTree) (token : List Nat) : TokenTree := ⟨token :: t.cancelled⟩

def isCancelled (t : TokenTree) (token : List Nat) : Bool :=
  t.cancelled.any fun above => above.isPrefixOf token

variable {t : TokenTree} {token other : List Nat}

theorem isCancelled_iff :
    t.isCancelled token = true ↔ ∃ above ∈ t.cancelled, above <+: token := by
  simp only [isCancelled, List.any_eq_true, List.isPrefixOf_iff_prefix]

/-- **A cancellation reaches what is below the token**, and nothing else. -/
theorem isCancelled_cancel :
    (t.cancel other).isCancelled token = true ↔ other <+: token ∨ t.isCancelled token = true := by
  simp only [isCancelled_iff, cancel, List.exists_mem_cons_iff]

theorem isCancelled_of_prefix (h : other <+: token) (hother : t.isCancelled other = true) :
    t.isCancelled token = true := by
  obtain ⟨above, hmem, hprefix⟩ := isCancelled_iff.mp hother
  exact isCancelled_iff.mpr ⟨above, hmem, hprefix.trans h⟩

theorem isCancelled_child (h : t.isCancelled token = true) (n : Nat) :
    t.isCancelled (child token n) = true :=
  isCancelled_of_prefix (List.prefix_append token [n]) h

end TokenTree
