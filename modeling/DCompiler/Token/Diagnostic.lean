import DCompiler.Diagnostic.Log
import DCompiler.Token.Lexer

/-!
# Lexical faults as diagnostics
-/

namespace DCompiler

def LexFault.diagnostic (cause : LexFault) (span : Span) : Diagnostic :=
  { severity := .error, message := cause.message, span := span, code := some cause.code }

end DCompiler
