import ReadersSpeech.Splitting
import ReadersSpeech.Text
import ReadersSpeech.Paragraphs
import ReadersSpeech.ParagraphRule
import ReadersSpeech.Desktop
import ReadersSpeech.VoiceMarks
import ReadersSpeech.Rounding
import ReadersSpeech.Translator
import ReadersSpeech.TranslatorRuns
import ReadersSpeech.TranslatorBlocks
import ReadersSpeech.TranslatorCancel
import ReadersSpeech.TranslatorStrip
import ReadersSpeech.Words
import ReadersSpeech.Summariser
import ReadersSpeech.Prompts
import ReadersSpeech.SummariserPieces
import ReadersSpeech.SummariserWords
import ReadersSpeech.SummariserSpoken
import ReadersSpeech.Transition
import ReadersSpeech.AbortFlag
import ReadersSpeech.WhisperLib
import ReadersSpeech.LlamaLib
import ReadersSpeech.NativeCancel
import ReadersSpeech.Download
import ReadersSpeech.DownloadFiles
import ReadersSpeech.DownloadRuns
import ReadersSpeech.DownloadResume
import ReadersSpeech.FirstMax
import ReadersSpeech.Jvm
import ReadersSpeech.Voices
import ReadersSpeech.Marking
import ReadersSpeech.VoicesFrames
import ReadersSpeech.VoicesStudy
import ReadersSpeech.Cells
import ReadersSpeech.Gemm
import ReadersSpeech.Lstm
import ReadersSpeech.Recurrence
import ReadersSpeech.LstmRuns
import ReadersSpeech.PyannetLayers
import ReadersSpeech.Layout
import ReadersSpeech.PyannetFile
import ReadersSpeech.PyannetFrames
import ReadersSpeech.PyannetRun
import ReadersSpeech.PyannetPlan
import ReadersSpeech.ChatTemplate
import ReadersSpeech.LlamaRuns
import ReadersSpeech.LlamaAnswers
import ReadersSpeech.SincLayer
import ReadersSpeech.PyannetSafe
import ReadersSpeech.PyannetLoad
import ReadersSpeech.PyannetRoundTrip
import ReadersSpeech.Guarded
import ReadersSpeech.SummariserPoints
import ReadersSpeech.SummariserRun
import ReadersSpeech.SummariserRuns
import ReadersSpeech.SummariserCancel
import ReadersSpeech.SummariserKept
import ReadersSpeech.Beginnings
import ReadersSpeech.SummariserBullets
import ReadersSpeech.SummariserNumbers
import ReadersSpeech.SummariserProgress
import ReadersSpeech.SummariserStutters
import ReadersSpeech.DownloadVersions
import ReadersSpeech.DownloadTogether
import ReadersSpeech.Batches
import ReadersSpeech.Pcm
import ReadersSpeech.Resample
import ReadersSpeech.PcmPieces
import ReadersSpeech.PcmTimes
import ReadersSpeech.Watching
import ReadersSpeech.Sessions
import ReadersSpeech.Remembering
import ReadersSpeech.ModelFiles
import ReadersSpeech.ModelFilesRuns
import ReadersSpeech.ModelFolder
import ReadersSpeech.ModelSharing
import ReadersSpeech.NativeHeap
import ReadersSpeech.LlamaOut
import ReadersSpeech.LlamaMemory
import ReadersSpeech.LlamaMemoryRuns
import ReadersSpeech.LlamaSession
import ReadersSpeech.Loader
import ReadersSpeech.FdReader
import ReadersSpeech.VoicesNative
import ReadersSpeech.Downloading
import ReadersSpeech.Vad
import ReadersSpeech.PyannetExported
import ReadersSpeech.Decode16k
import ReadersSpeech.SessionsShown
import ReadersSpeech.NdArray
import ReadersSpeech.Onnx
import ReadersSpeech.RealLayers
import ReadersSpeech.PyannetGraph
