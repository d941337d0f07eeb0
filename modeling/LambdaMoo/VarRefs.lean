import LambdaMoo.Listing

/-! How many variable operands the code of a tree has, and which bodies of fork
statements a tree contains, in the order their vectors are finished. -/
namespace LambdaMoo.Listing
open CodeGen

def varOpRefs (slot : Nat) : Nat := if slot < 32 then 0 else 1

def storeRefs : Expr → Nat
  | .range base _ _ => storeRefs base
  | .index lhs _ => storeRefs lhs
  | .id slot => varOpRefs slot
  | _ => 0

mutual
def exprRefs : Expr → Nat
  | .var _ => 0
  | .id slot => varOpRefs slot
  | .logic _ lhs rhs => exprRefs lhs + exprRefs rhs
  | .unary _ expr => exprRefs expr
  | .binary _ lhs rhs => exprRefs lhs + exprRefs rhs
  | .prop lhs rhs => exprRefs lhs + exprRefs rhs
  | .index lhs rhs => exprRefs lhs + exprRefs rhs
  | .range base lower upper => exprRefs base + exprRefs lower + exprRefs upper
  | .length => 0
  | .list args => argsRefs args
  | .call _ args => argsRefs args
  | .verb obj verb args => exprRefs obj + exprRefs verb + argsRefs args
  | .cond condition consequent alternate =>
      exprRefs condition + exprRefs consequent + exprRefs alternate
  | .asgn (.scatter targets) rhs => exprRefs rhs + targets.count + defaultsRefs targets
  | .asgn lhs rhs => lvalueRefs lhs false + exprRefs rhs + storeRefs lhs
  | .catch_ body codes except => argsRefs codes + exprRefs body + exceptRefs except
  | .scatter _ => 0
def exceptRefs : Default → Nat
  | .some expr => exprRefs expr
  | .none => 0
def defaultsRefs : Scatter → Nat
  | .nil => 0
  | .cons .optional id (.some expr) next => exprRefs expr + varOpRefs id + defaultsRefs next
  | .cons _ _ _ next => defaultsRefs next
def argsRefs : ArgList → Nat
  | .nil => 0
  | .cons _ expr next => exprRefs expr + argsRefs next
def lvalueRefs : Expr → Bool → Nat
  | .range base lower upper, _ => lvalueRefs base true + exprRefs lower + exprRefs upper
  | .index lhs rhs, _ => lvalueRefs lhs true + exprRefs rhs
  | .id slot, above => if above then varOpRefs slot else 0
  | .prop lhs rhs, _ => exprRefs lhs + exprRefs rhs
  | _, _ => 0
end

def handlersRefs : ExceptArm → Nat
  | .nil => 0
  | .cons _ codes _ next => argsRefs codes + handlersRefs next

mutual
def stmtRefs : Stmt → Nat
  | .cond arms otherwise => armsRefs arms + stmtsRefs otherwise
  | .list _ expr body => exprRefs expr + 1 + stmtsRefs body
  | .range _ lower upper body => exprRefs lower + exprRefs upper + 1 + stmtsRefs body
  | .while_ id condition body => exprRefs condition + id.toList.length + stmtsRefs body
  | .fork id time body => exprRefs time + stmtsRefs body + id.toList.length
  | .expr expr => exprRefs expr
  | .return_ expr => exceptRefs expr
  | .tryExcept body excepts => handlersRefs excepts + stmtsRefs body + exceptsRefs excepts
  | .tryFinally body handler => stmtsRefs body + stmtsRefs handler
  | .break_ exit => exit.toList.length
  | .continue_ exit => exit.toList.length
def stmtsRefs : Stmts → Nat
  | .nil => 0
  | .cons stmt next => stmtRefs stmt + stmtsRefs next
def armsRefs : CondArm → Nat
  | .nil => 0
  | .cons condition stmt next => exprRefs condition + stmtsRefs stmt + armsRefs next
def exceptsRefs : ExceptArm → Nat
  | .nil => 0
  | .cons id _ stmt next => id.elim 0 varOpRefs + stmtsRefs stmt + exceptsRefs next
end

/-- The body of a fork statement, with the number of fork vectors finished and of
variable operands counted before it. -/
structure ForkBody where
  body : Stmts
  forks : Nat
  refs : Nat

mutual
def stmtBodies : Stmt → Nat → Nat → List ForkBody
  | .cond arms otherwise, forks, refs =>
      armsBodies arms forks refs ++
        stmtsBodies otherwise (forks + armsForks arms) (refs + armsRefs arms)
  | .list _ expr body, forks, refs => stmtsBodies body forks (refs + exprRefs expr + 1)
  | .range _ lower upper body, forks, refs =>
      stmtsBodies body forks (refs + exprRefs lower + exprRefs upper + 1)
  | .while_ id condition body, forks, refs =>
      stmtsBodies body forks (refs + exprRefs condition + id.toList.length)
  | .fork _ time body, forks, refs =>
      let refs := refs + exprRefs time
      stmtsBodies body forks refs ++ [⟨body, forks, refs⟩]
  | .tryExcept body excepts, forks, refs =>
      let refs := refs + handlersRefs excepts
      stmtsBodies body forks refs ++
        exceptsBodies excepts (forks + stmtsForks body) (refs + stmtsRefs body)
  | .tryFinally body handler, forks, refs =>
      stmtsBodies body forks refs ++
        stmtsBodies handler (forks + stmtsForks body) (refs + stmtsRefs body)
  | _, _, _ => []
def stmtsBodies : Stmts → Nat → Nat → List ForkBody
  | .nil, _, _ => []
  | .cons stmt next, forks, refs =>
      stmtBodies stmt forks refs ++
        stmtsBodies next (forks + stmtForks stmt) (refs + stmtRefs stmt)
def armsBodies : CondArm → Nat → Nat → List ForkBody
  | .nil, _, _ => []
  | .cons condition stmt next, forks, refs =>
      let refs := refs + exprRefs condition
      stmtsBodies stmt forks refs ++
        armsBodies next (forks + stmtsForks stmt) (refs + stmtsRefs stmt)
def exceptsBodies : ExceptArm → Nat → Nat → List ForkBody
  | .nil, _, _ => []
  | .cons id _ stmt next, forks, refs =>
      let refs := refs + id.elim 0 varOpRefs
      stmtsBodies stmt forks refs ++
        exceptsBodies next (forks + stmtsForks stmt) (refs + stmtsRefs stmt)
end

end LambdaMoo.Listing
