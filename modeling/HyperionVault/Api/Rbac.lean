import HyperionVault.Store.Model

/-!
# Rules of a role

`rbac.rs`: a rule is an action and a path; a path that ends in a star matches every name that begins with
what stands before the star.

* `pathMatches`, `actionMatches` : one rule;
* `rulesAllow`, `visible` : what an actor with these rules may do, and sees.
-/

namespace HyperionVault

abbrev Rules := List (String × String)

def actions : List String := ["create", "update", "delete", "rotate"]

def isValidAction (action : String) : Bool := action = "*" || actions.contains action

/-- What stands before a star at the end of the pattern. -/
def stripStar (pattern : String) : Option (List Char) :=
  if pattern.toList.getLast? = some '*' then some pattern.toList.dropLast else none

def pathMatches (pattern name : String) : Bool :=
  match stripStar pattern with
  | some start => start.isPrefixOf name.toList
  | none => pattern = name

def actionMatches (ruleAction action : String) : Bool := ruleAction = "*" || ruleAction = action

/-- `rbac::authorize` -/
def rulesAllow (isAdmin : Bool) (rules : Rules) (action name : String) : Bool :=
  isAdmin || rules.any fun rule => actionMatches rule.1 action && pathMatches rule.2 name

def visible (isAdmin : Bool) (rules : Rules) (name : String) : Bool :=
  isAdmin || rules.any fun rule => pathMatches rule.2 name

example : pathMatches "stripe/*" "stripe/secret-key" = true := by decide

/-- What an actor may do to a name, it also sees. -/
theorem visible_of_rulesAllow {isAdmin : Bool} {rules : Rules} {action name : String}
    (h : rulesAllow isAdmin rules action name = true) : visible isAdmin rules name = true := by
  simp only [rulesAllow, visible, Bool.or_eq_true, List.any_eq_true, Bool.and_eq_true] at h ⊢
  rcases h with hadmin | ⟨rule, hmem, _, hpath⟩
  · exact Or.inl hadmin
  · exact Or.inr ⟨rule, hmem, hpath⟩

end HyperionVault
