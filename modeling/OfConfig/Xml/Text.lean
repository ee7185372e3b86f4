import OfConfig.Xml.Node

/-!
# `OfConfig.Xml.Text`: the XML text of a document

What `xmlDocDumpMemory` writes for a document, without the line ends around the root.
A namespace is declared where it begins, and the prefix of an attribute where it is
used. Parsing is left to the server's environment; the text of a document is what a
parser reads it from.
-/

set_option autoImplicit false

namespace OfConfig.Xml

open OfConfig.Lib

/-- Characters that cannot stand for themselves in character data or in a quoted
value. -/
def escapeChar (c : Char) : String :=
  if c = '<' then "&lt;"
  else if c = '>' then "&gt;"
  else if c = '&' then "&amp;"
  else if c = '"' then "&quot;"
  else c.toString

def escape (s : String) : String := String.join (s.toList.map escapeChar)

/-- A name and a quoted value, with a blank in front. -/
def attributeText (name value : String) : String :=
  " " ++ name ++ "=\"" ++ escape value ++ "\""

/-- An attribute in a namespace is written with the prefix `nc`, which is declared
beside it. -/
def attrText (a : Attr) : String :=
  match a.ns with
  | none => attributeText a.name a.value
  | some href => attributeText "xmlns:nc" href ++ attributeText ("nc:" ++ a.name) a.value

/-- The declaration of an element's namespace, unless it is that of the parent. -/
def nsText (parent ns : Option String) : String :=
  if ns = parent then "" else attributeText "xmlns" (ns.getD "")

mutual
/-- A node in a parent with the namespace `parent`. -/
def nodeText (parent : Option String) : Node → String
  | .node (.element name ns attrs) cs =>
    let tag := name ++ nsText parent ns ++ String.join (attrs.map attrText)
    if cs.isEmpty then "<" ++ tag ++ "/>"
    else "<" ++ tag ++ ">" ++ nodesText ns cs ++ "</" ++ name ++ ">"
  | .node (.text s) _ => escape s
  | .node (.cdata s) _ => "<![CDATA[" ++ s ++ "]]>"
  | .node (.comment s) _ => "<!--" ++ s ++ "-->"
  | .node (.pi target content) _ => "<?" ++ target ++ " " ++ content.getD "" ++ "?>"

/-- The nodes of a list, one after the other. -/
def nodesText (parent : Option String) : List Node → String
  | [] => ""
  | n :: ns => nodeText parent n ++ nodesText parent ns
end

/-- The text of a document. -/
def xmlText (d : Doc) : String := "<?xml version=\"1.0\"?>" ++ nodesText none d

end OfConfig.Xml
