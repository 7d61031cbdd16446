set_option autoImplicit false

namespace HybridTemplate

inductive Kind where
  | document
  | hostCode | hostComment | hostString | formatString
  | component | componentHeader | componentName | componentBody
  | element | selfClosingElement | pairedElement | startTag | endTag | fragment
  | elementChildren | elementPunct | elementName | markupText | markupComment
  | space | punct
  | attributes | spacedAttribute | markupAttribute | kvAttribute | novalueAttribute
  | spreadAttribute | sameNameAttribute | utilityLiteral | attributeName
  | attributeValue | operator | quotedValue
  | serverEmbed | serverEmbedDelim | clientEmbed | clientEmbedDelim | clientExpr
  | jointEmbed
  | elementWithScript | webScript | scriptBody | scriptCode | staticImport
  | moduleSpecifier
  | other (name : String)
deriving DecidableEq, Repr

namespace Kind

def name : Kind → String
  | document => "document"
  | hostCode => "host_code"
  | hostComment => "host_comment"
  | hostString => "host_string"
  | formatString => "format_string"
  | component => "component"
  | componentHeader => "component_header"
  | componentName => "component_name"
  | componentBody => "component_body"
  | element => "element"
  | selfClosingElement => "self_closing_element"
  | pairedElement => "paired_element"
  | startTag => "start_tag"
  | endTag => "end_tag"
  | fragment => "fragment"
  | elementChildren => "element_children"
  | elementPunct => "element_punct"
  | elementName => "element_name"
  | markupText => "markup_text"
  | markupComment => "markup_comment"
  | space => "space"
  | punct => "punct"
  | attributes => "attributes"
  | spacedAttribute => "spaced_attribute"
  | markupAttribute => "attribute"
  | kvAttribute => "kv_attribute"
  | novalueAttribute => "novalue_attribute"
  | spreadAttribute => "spread_attribute"
  | sameNameAttribute => "same_name_attribute"
  | utilityLiteral => "utility_literal"
  | attributeName => "attribute_name"
  | attributeValue => "attribute_value"
  | operator => "operator"
  | quotedValue => "quoted_value"
  | serverEmbed => "server_embed"
  | serverEmbedDelim => "server_embed_delim"
  | clientEmbed => "client_embed"
  | clientEmbedDelim => "client_embed_delim"
  | clientExpr => "client_expr"
  | jointEmbed => "joint_embed"
  | elementWithScript => "element_with_script"
  | webScript => "web_script"
  | scriptBody => "script_body"
  | scriptCode => "script_code"
  | staticImport => "static_import"
  | moduleSpecifier => "module_specifier"
  | other name => name

def vocabulary : List Kind := [
  document, hostCode, hostComment, hostString, formatString, component, componentHeader,
  componentName, componentBody, element, selfClosingElement, pairedElement, startTag, endTag,
  fragment, elementChildren, elementPunct, elementName, markupText, markupComment, space, punct,
  attributes, spacedAttribute, markupAttribute, kvAttribute, novalueAttribute, spreadAttribute,
  sameNameAttribute, utilityLiteral, attributeName, attributeValue, operator, quotedValue,
  serverEmbed, serverEmbedDelim, clientEmbed, clientEmbedDelim, clientExpr, jointEmbed,
  elementWithScript, webScript, scriptBody, scriptCode, staticImport, moduleSpecifier]

def ofName (s : String) : Kind := (vocabulary.find? fun k => k.name == s).getD (other s)

theorem name_ofName (s : String) : (ofName s).name = s := by
  unfold ofName
  cases found : vocabulary.find? fun k => k.name == s with
  | none => rfl
  | some k => simpa using List.find?_some found

end Kind
end HybridTemplate
