import SourceRepair.Script.Tree

/-!
# Subtrees

The trees directly inside a tree, and how many trees a tree holds.
-/

namespace SourceRepair.Script

/-- The trees directly inside a tree, from left to right. -/
def Tree.children : Tree → List Tree
  | .template ts _ | .array ts _ | .object ts _ | .sequence ts _ | .staticBlock ts _
  | .objectPattern ts _ | .arrayPattern ts _ | .body _ ts _ | .block ts _ | .declaration _ ts _
  | .tryCatch ts _ | .enumDecl _ ts _ | .moduleDecl _ ts _ | .jsxFragment ts _ => ts
  | .tagged t ts _ | .call t ts _ _ | .construct t ts _ | .switch t ts _ => t :: ts
  | .arrow _ ts t | .param ts t _ => ts ++ [t]
  | .function _ ts o => ts ++ o.toList
  | .switchCase o ts _ | .tryPart _ o ts _ => o.toList ++ ts
  | .classDef _ ds o ms _ => ds ++ o.toList ++ ms
  | .unary _ t _ | .update t _ | .privateIn _ t _ | .paren t _ | .member t _ _ _
  | .privateMember t _ _ _ | .chain t _ | .await t _ | .ascribe _ t _ | .spread t _ | .rest t _
  | .expression t _ | .throws t _ | .functionDecl t | .classDecl t | .labeled _ t _
  | .exportDefault t _ | .exportAssignment t _ => [t]
  | .binary _ a b _ | .logical _ a b _ | .assign _ a b _ | .index a b _ _ | .withDefault a b _
  | .patternProperty a _ b _ | .whileLoop a b _ | .doWhile a b _ | .withObject a b _ => [a, b]
  | .conditional a b c _ | .forIn a b c _ | .forOf a b c _ => [a, b, c]
  | .importCall t o _ | .declarator t o _ => t :: o.toList
  | .yield o _ | .returns o _ | .exportNamed o _ _ | .enumMember _ o _ | .jsxAttribute _ o _
  | .jsxContainer o _ => o.toList
  | .property k _ v _ o _ => [k, v] ++ o.toList
  | .method k _ ds f _ => ds ++ [k, f]
  | .field k _ ds o _ => ds ++ k :: o.toList
  | .ifThen a b o _ => [a, b] ++ o.toList
  | .forLoop o p q t _ => o.toList ++ p.toList ++ q.toList ++ [t]
  | .jsxElement _ as _ cs _ _ => as ++ cs
  | _ => []

mutual

/-- The number of trees in a tree. -/
def Tree.size : Tree → Nat
  | .template ts _ | .array ts _ | .object ts _ | .sequence ts _ | .staticBlock ts _
  | .objectPattern ts _ | .arrayPattern ts _ | .body _ ts _ | .block ts _ | .declaration _ ts _
  | .tryCatch ts _ | .enumDecl _ ts _ | .moduleDecl _ ts _ | .jsxFragment ts _ => 1 + sizeList ts
  | .tagged t ts _ | .call t ts _ _ | .construct t ts _ | .arrow _ ts t | .switch t ts _
  | .param ts t _ => 1 + t.size + sizeList ts
  | .function _ ts o | .switchCase o ts _ | .tryPart _ o ts _ => 1 + sizeList ts + sizeOption o
  | .classDef _ ds o ms _ => 1 + sizeList ds + sizeOption o + sizeList ms
  | .unary _ t _ | .update t _ | .privateIn _ t _ | .paren t _ | .member t _ _ _
  | .privateMember t _ _ _ | .chain t _ | .await t _ | .ascribe _ t _ | .spread t _ | .rest t _
  | .expression t _ | .throws t _ | .functionDecl t | .classDecl t | .labeled _ t _
  | .exportDefault t _ | .exportAssignment t _ => 1 + t.size
  | .binary _ a b _ | .logical _ a b _ | .assign _ a b _ | .index a b _ _ | .withDefault a b _
  | .patternProperty a _ b _ | .whileLoop a b _ | .doWhile a b _ | .withObject a b _ =>
    1 + a.size + b.size
  | .conditional a b c _ | .forIn a b c _ | .forOf a b c _ => 1 + a.size + b.size + c.size
  | .importCall t o _ | .declarator t o _ => 1 + t.size + sizeOption o
  | .yield o _ | .returns o _ | .exportNamed o _ _ | .enumMember _ o _ | .jsxAttribute _ o _
  | .jsxContainer o _ => 1 + sizeOption o
  | .property k _ v _ o _ => 1 + k.size + v.size + sizeOption o
  | .method k _ ds f _ => 1 + k.size + sizeList ds + f.size
  | .field k _ ds o _ => 1 + k.size + sizeList ds + sizeOption o
  | .ifThen a b o _ => 1 + a.size + b.size + sizeOption o
  | .forLoop o p q t _ => 1 + sizeOption o + sizeOption p + sizeOption q + t.size
  | .jsxElement _ as _ cs _ _ => 1 + sizeList as + sizeList cs
  | _ => 1

def sizeList : List Tree → Nat
  | [] => 0
  | t :: ts => t.size + sizeList ts

def sizeOption : Option Tree → Nat
  | none => 0
  | some t => t.size

end

end SourceRepair.Script
