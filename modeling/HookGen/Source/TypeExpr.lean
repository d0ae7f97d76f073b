import HookGen.Source.Token

/-!
Type expressions of declaration sources. What later stages take apart has a constructor of its own;
every other type is kept as its tokens.
-/

namespace HookGen.Source

mutual

inductive TypeExpr
  -- a keyword type, a literal, or a type built with an operator
  | verbatim (source : List Token)
  | name (token : Token)
  | grouped (inner : TypeExpr)
  | object (entries : List Entry)
  | union (members : List TypeExpr)
  | array (element : TypeExpr)
  | tuple (elements : List TypeExpr)
  -- an indexed access, with the source of the index and of the whole
  | access (target index : TypeExpr) (indexSource source : List Token)
  -- a name, dotted or not, with type arguments
  | apply (name : List Token) (arguments : List TypeExpr)

-- A part of an object type: a property, which may have no type, or one of the other signatures.
inductive Entry
  | property (name : List Token) (optional : Bool) (readonly : Bool) (type : Option TypeExpr)
  | other (source : List Token)

end

end HookGen.Source
