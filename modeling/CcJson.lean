import CcJson.ForStd.Run
import CcJson.ForStd.Utf8
import CcJson.ForStd.Munch
import CcJson.ForStd.Grammar
import CcJson.ForStd.Transcode
import CcJson.ForStd.Utf16
import CcJson.Native.Utf8Convert
import CcJson.Native.Main
import CcJson.Spec.Utf8CppCorrect
import CcJson.Spec.Utf8Conversions
import CcJson.Spec.Utf8Repair
import CcJson.Spec.Utf8Moves
import CcJson.Spec.Cursor
import CcJson.Spec.TokenizerCorrect
import CcJson.Spec.Recognition
import CcJson.Spec.Positions
import CcJson.Spec.TokenViews
import CcJson.Spec.Literals
import CcJson.Spec.Sources
import CcJson.Spec.Readers
import CcJson.Spec.Lookahead
import CcJson.Spec.Restart
import CcJson.Spec.ParserCorrect
import CcJson.Spec.ParserStep
import CcJson.Spec.ParserRun
import CcJson.Spec.Traces
import CcJson.Spec.Diagnostics
import CcJson.Spec.Progress
import CcJson.Spec.ValueTree
import CcJson.Spec.JsonText
import CcJson.Spec.Validator
import CcJson.Spec.Program
import CcJson.Spec.Whitespace
import CcJson.Spec.Locality
import CcJson.Spec.Printing
import CcJson.Spec.Completion
import CcJson.Spec.Replacement
