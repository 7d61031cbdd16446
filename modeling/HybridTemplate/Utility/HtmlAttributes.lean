set_option autoImplicit false

namespace HybridTemplate.Utility

/-- Whether an attribute, the second argument, is markup on an element, the first. -/
abbrev HtmlTable := String → String → Bool

namespace HtmlAttributes

def globals : List String := [
  "accesskey", "autocapitalize", "autofocus", "contenteditable", "dir", "draggable",
  "enterkeyhint", "hidden", "id", "inert", "inputmode", "is", "itemid", "itemprop", "itemref",
  "itemscope", "itemtype", "lang", "nonce", "part", "popover", "role", "slot", "spellcheck",
  "style", "tabindex", "title", "translate"]

def ofElement : String → List String
  | "a" => ["download", "href", "hreflang", "ping", "referrerpolicy", "rel", "target", "type"]
  | "area" => ["alt", "coords", "download", "href", "ping", "referrerpolicy", "rel", "shape",
      "target"]
  | "audio" => ["autoplay", "controls", "crossorigin", "loop", "muted", "preload", "src"]
  | "base" => ["href", "target"]
  | "blockquote" => ["cite"]
  | "button" => ["disabled", "form", "formaction", "formenctype", "formmethod", "formnovalidate",
      "formtarget", "name", "popovertarget", "popovertargetaction", "type", "value"]
  | "canvas" => ["height", "width"]
  | "col" => ["span"]
  | "colgroup" => ["span"]
  | "data" => ["value"]
  | "del" => ["cite", "datetime"]
  | "details" => ["name", "open"]
  | "dialog" => ["open"]
  | "embed" => ["height", "src", "type", "width"]
  | "fieldset" => ["disabled", "form", "name"]
  | "form" => ["accept-charset", "action", "autocomplete", "enctype", "method", "name",
      "novalidate", "rel", "target"]
  | "iframe" => ["allow", "allowfullscreen", "height", "loading", "name", "referrerpolicy",
      "sandbox", "src", "srcdoc", "width"]
  | "img" => ["alt", "crossorigin", "decoding", "fetchpriority", "height", "ismap", "loading",
      "referrerpolicy", "sizes", "src", "srcset", "usemap", "width"]
  | "input" => ["accept", "alt", "autocomplete", "checked", "dirname", "disabled", "form",
      "formaction", "formenctype", "formmethod", "formnovalidate", "formtarget", "height", "list",
      "max", "maxlength", "min", "minlength", "multiple", "name", "pattern", "placeholder",
      "popovertarget", "readonly", "required", "size", "src", "step", "type", "value", "width"]
  | "ins" => ["cite", "datetime"]
  | "label" => ["for"]
  | "li" => ["value"]
  | "link" => ["as", "crossorigin", "href", "hreflang", "integrity", "media", "referrerpolicy",
      "rel", "sizes", "type"]
  | "map" => ["name"]
  | "meta" => ["charset", "content", "http-equiv", "media", "name"]
  | "meter" => ["high", "low", "max", "min", "optimum", "value"]
  | "object" => ["data", "form", "height", "name", "type", "width"]
  | "ol" => ["reversed", "start", "type"]
  | "optgroup" => ["disabled", "label"]
  | "option" => ["disabled", "label", "selected", "value"]
  | "output" => ["for", "form", "name"]
  | "progress" => ["max", "value"]
  | "q" => ["cite"]
  | "script" => ["async", "crossorigin", "defer", "integrity", "nomodule", "referrerpolicy", "src",
      "type"]
  | "select" => ["autocomplete", "disabled", "form", "multiple", "name", "required", "size"]
  | "slot" => ["name"]
  | "source" => ["height", "media", "sizes", "src", "srcset", "type", "width"]
  | "style" => ["media"]
  | "td" => ["colspan", "headers", "rowspan"]
  | "template" => ["shadowrootmode"]
  | "textarea" => ["autocomplete", "cols", "dirname", "disabled", "form", "maxlength", "minlength",
      "name", "placeholder", "readonly", "required", "rows", "wrap"]
  | "th" => ["abbr", "colspan", "headers", "rowspan", "scope"]
  | "time" => ["datetime"]
  | "track" => ["default", "kind", "label", "src", "srclang"]
  | "video" => ["autoplay", "controls", "crossorigin", "height", "loop", "muted", "playsinline",
      "poster", "preload", "src", "width"]
  | _ => []

def isEventHandler (name : List Char) : Bool :=
  match name with
  | 'o' :: 'n' :: c :: cs => (c :: cs).all Char.isLower
  | _ => false

def standard : HtmlTable := fun element name =>
  globals.contains name || "aria-".toList.isPrefixOf name.toList ||
    "data-".toList.isPrefixOf name.toList || isEventHandler name.toList ||
    (ofElement element).contains name

end HtmlAttributes
end HybridTemplate.Utility
