/-!
# Languages of generated codes
-/

namespace Polyglot

/-- The language of a code, named as editors name it. -/
inductive Language where
  | astro
  | markdown
  | typescriptReact
  | typescript
  | javascript
  | css
  | scss
  | less
  | yaml
deriving DecidableEq, Repr, Inhabited

namespace Language

/-- The identifier that editors know the language by. -/
def identifier : Language → String
  | .astro => "astro"
  | .markdown => "markdown"
  | .typescriptReact => "typescriptreact"
  | .typescript => "typescript"
  | .javascript => "javascript"
  | .css => "css"
  | .scss => "scss"
  | .less => "less"
  | .yaml => "yaml"

/-- The extension of a file in the language. -/
def extension : Language → String
  | .astro => "astro"
  | .markdown => "md"
  | .typescriptReact => "tsx"
  | .typescript => "ts"
  | .javascript => "js"
  | .css => "css"
  | .scss => "scss"
  | .less => "less"
  | .yaml => "yaml"

end Language

end Polyglot
